import LinuxMemory.Transition
import Mathlib.Logic.Function.Basic

/-!
The mutex of `09_threads_memory/05_futex_basic.c`, one atomic step of one thread
at a time. The threads are any type; each runs its iterations of `worker`, with
`shared++` as a read and a write. `futex(2)` compares and sleeps in one step, and
sleepers may return at any time. Whether `FUTEX_WAKE` must wake a sleeper when
there is one is a parameter. `shared` is a `long` whose overflow is out of reach.
-/

namespace LinuxMemory.Futex

/-- Where a thread is: the step it takes next. -/
inductive Pc where
  -- outside `lock` and `unlock`; next is the compare-and-exchange of `lock`
  | outside
  -- in the loop of `lock`; next is the exchange to 2
  | swapping
  -- the exchange returned 1 or 2; next is the entry to `futex_wait`
  | waiting
  | asleep
  -- holds the mutex; next is the read of `shared`
  | locked
  -- next is the write of `value + 1` to `shared`
  | loaded (value : Int)
  -- next is the exchange to 0 of `unlock`
  | unlocking
  -- the exchange returned 2; next is `futex_wake`
  | waking
  deriving DecidableEq

variable {Thread : Type}

structure State (Thread : Type) where
  m : Nat
  shared : Int
  pc : Thread → Pc
  -- iterations of `worker` still to begin
  left : Thread → Nat
  -- iterations whose exchange to 0 is done, over all threads
  finished : Nat

def N : Nat := 100 * 1000

def workers : State Bool :=
  { m := 0, shared := 0, pc := fun _ => .outside, left := fun _ => N, finished := 0 }

section Steps
variable [DecidableEq Thread]

def State.goto (s : State Thread) (t : Thread) (next : Pc) : State Thread :=
  { s with pc := Function.update s.pc t next }

/-- The sleeper that `futex_wake` picked goes back to the loop of `lock`. -/
def State.rouse (s : State Thread) (woken : Option Thread) : State Thread :=
  match woken with
  | none => s
  | some u => s.goto u .swapping

/-- One atomic step of thread `t`; `sure` says that `FUTEX_WAKE` wakes a sleeper
if there is any. -/
inductive Step (sure : Prop) : State Thread → Thread → State Thread → Prop where
  -- the compare-and-exchange succeeds
  | acquire {s : State Thread} {t : Thread} (here : s.pc t = .outside) (more : 0 < s.left t)
      (unlocked : s.m = 0) :
      Step sure s t ({ s with m := 1, left := Function.update s.left t (s.left t - 1) }.goto t .locked)
  | contend {s : State Thread} {t : Thread} (here : s.pc t = .outside) (more : 0 < s.left t)
      (taken : s.m ≠ 0) :
      Step sure s t ({ s with left := Function.update s.left t (s.left t - 1) }.goto t .swapping)
  | exchange {s : State Thread} {t : Thread} (here : s.pc t = .swapping) :
      Step sure s t ({ s with m := 2 }.goto t (if s.m = 0 then .locked else .waiting))
  | sleep {s : State Thread} {t : Thread} (here : s.pc t = .waiting) (same : s.m = 2) :
      Step sure s t (s.goto t .asleep)
  -- `futex_wait` returns at once: the word differs, or a signal
  | decline {s : State Thread} {t : Thread} (here : s.pc t = .waiting) :
      Step sure s t (s.goto t .swapping)
  | spurious {s : State Thread} {t : Thread} (here : s.pc t = .asleep) :
      Step sure s t (s.goto t .swapping)
  | read {s : State Thread} {t : Thread} (here : s.pc t = .locked) :
      Step sure s t (s.goto t (.loaded s.shared))
  | write {s : State Thread} {t : Thread} {value : Int} (here : s.pc t = .loaded value) :
      Step sure s t ({ s with shared := value + 1 }.goto t .unlocking)
  | release {s : State Thread} {t : Thread} (here : s.pc t = .unlocking) :
      Step sure s t ({ s with m := 0, finished := s.finished + 1 }.goto t
        (if s.m = 2 then .waking else .outside))
  | wake {s : State Thread} {t : Thread} {woken : Option Thread} (here : s.pc t = .waking)
      (sleeper : ∀ u ∈ woken, s.pc u = .asleep)
      (picked : sure → woken = none → ∀ u, s.pc u ≠ .asleep) :
      Step sure s t ((s.goto t .outside).rouse woken)

def Started (s : State Thread) : Prop :=
  s.m = 0 ∧ s.shared = 0 ∧ s.finished = 0 ∧ ∀ t, s.pc t = .outside

def system (sure : Prop) : Transition.System (State Thread) Thread := ⟨Started, Step sure⟩

abbrev Run (sure : Prop) : State Thread → Prop := Transition.Reachable (system sure)

end Steps

end LinuxMemory.Futex
