import Mathlib.Data.List.Nodup
import Mathlib.Data.List.Perm.Basic
import Mathlib.Logic.Function.Basic
import LinuxMemory.PauseLoop

/-!
`08_process_syscalls/10_sigchld.c` with `n` children, after its `sigaction`. A
child that exits becomes a zombie and makes SIGCHLD pending in one step; the
signal is pending or not, however many children have exited, and it is blocked
while `on_chld` runs. An iteration of the loop in `on_chld` is one step: the
handler runs on the thread of `main`, so that nothing reads `reaped` between
`waitpid` and the increment.
-/

namespace LinuxMemory.Sigchld

open PauseLoop Transition

inductive Status where
  | unforked
  | running
  | zombie
  | collected
  deriving DecidableEq

/-- What `on_chld` does next, if it runs. -/
inductive Handler where
  | idle
  -- next is a call of `waitpid`
  | looping
  -- `waitpid` found no zombie; next is the return
  | returning
  deriving DecidableEq

structure State where
  i : Nat
  child : Nat → Status
  pending : Bool
  handler : Handler
  reaped : Nat
  -- the children that `waitpid` returned, the last one first
  counted : List Nat
  pc : Pc

inductive Event where
  | fork
  | exit (k : Nat)
  | deliver
  | reap (k : Nat)
  | drained
  | ret
  | main

def State.turn (s : State) (k : Nat) (status : Status) : State :=
  { s with child := Function.update s.child k status }

inductive Step (n : Nat) : State → Event → State → Prop where
  | fork {s : State} (idle : s.handler = .idle) (here : s.pc = .ahead) (more : s.i < n) :
      Step n s .fork { s.turn s.i .running with i := s.i + 1 }
  -- `fork` fails, and the loop goes on
  | forkFails {s : State} (idle : s.handler = .idle) (here : s.pc = .ahead) (more : s.i < n) :
      Step n s .fork { s with i := s.i + 1 }
  | exit {s : State} {k : Nat} (alive : s.child k = .running) :
      Step n s (.exit k) { s.turn k .zombie with pending := true }
  | deliver {s : State} (waiting : s.pending = true) (unblocked : s.handler = .idle) :
      Step n s .deliver { s with pending := false, handler := .looping, pc := interrupt s.pc }
  -- `waitpid` collects a zombie
  | reap {s : State} {k : Nat} (here : s.handler = .looping) (found : s.child k = .zombie) :
      Step n s (.reap k)
        { s.turn k .collected with reaped := s.reaped + 1, counted := k :: s.counted }
  -- `waitpid` returns 0 or, without any child left, -1
  | drained {s : State} (here : s.handler = .looping) (none : ∀ k, s.child k ≠ .zombie) :
      Step n s .drained { s with handler := .returning }
  | ret {s : State} (here : s.handler = .returning) : Step n s .ret { s with handler := .idle }
  | start {s : State} (idle : s.handler = .idle) (here : s.pc = .ahead) (done : s.i = n) :
      Step n s .main { s with pc := .checking }
  | loop {s : State} {pc : Pc} (idle : s.handler = .idle)
      (moves : LoopStep (¬ s.reaped < n) s.pc pc) : Step n s .main { s with pc := pc }

def initial : State := ⟨0, fun _ => .unforked, false, .idle, 0, [], .ahead⟩

def system (n : Nat) : System State Event := ⟨(· = initial), Step n⟩

abbrev Run (n : Nat) : State → Prop := Reachable (system n)

/-! No child is lost. -/

def Status.exited : Status → Bool
  | .zombie => true
  | .collected => true
  | _ => false

def exitedCount (n : Nat) (s : State) : Nat := (List.range n).countP fun k => (s.child k).exited

/-- A zombie's signal is pending, or the handler has yet to look for it. -/
structure Invariant (n : Nat) (s : State) : Prop where
  bound : s.i ≤ n
  unforked : ∀ k, s.i ≤ k → s.child k = .unforked
  exactly : ∀ k, k ∈ s.counted ↔ s.child k = .collected
  distinct : s.counted.Nodup
  count : s.reaped = s.counted.length
  signalled : ∀ k, s.child k = .zombie → s.pending = true ∨ s.handler = .looping

@[simp] theorem turn_self (s : State) (k : Nat) (status : Status) :
    (s.turn k status).child k = status := by
  simp [State.turn]

theorem turn_other (s : State) (k other : Nat) (status : Status) (different : other ≠ k) :
    (s.turn k status).child other = s.child other := by
  simp [State.turn, different]

section Steps
variable {n : Nat} {s : State}

theorem invariant_fork (invariant : Invariant n s) (more : s.i < n) :
    Invariant n { s.turn s.i .running with i := s.i + 1 } := by
  obtain ⟨bound, unforked, exactly, distinct, count, signalled⟩ := invariant
  have new := unforked s.i (Nat.le_refl _)
  refine ⟨more, ?_, ?_, distinct, count, ?_⟩
  · intro k later
    have beyond : s.i < k := later
    exact (turn_other s s.i k .running (Nat.ne_of_gt beyond)).trans (unforked k (Nat.le_of_lt beyond))
  · intro k
    show k ∈ s.counted ↔ (s.turn s.i .running).child k = .collected
    by_cases same : k = s.i
    · rw [exactly k, same, new, turn_self]
      simp
    · rw [exactly k, turn_other s s.i k .running same]
  · intro k zombie
    have different : k ≠ s.i := by
      rintro rfl
      simp at zombie
    exact signalled k ((turn_other s s.i k .running different).symm.trans zombie)

theorem invariant_exit (invariant : Invariant n s) (k : Nat) (alive : s.child k = .running) :
    Invariant n { s.turn k .zombie with pending := true } := by
  obtain ⟨bound, unforked, exactly, distinct, count, signalled⟩ := invariant
  refine ⟨bound, ?_, ?_, distinct, count, fun _ _ => Or.inl rfl⟩
  · intro other later
    have different : other ≠ k := by
      rintro rfl
      rw [unforked other later] at alive
      simp at alive
    exact (turn_other s k other .zombie different).trans (unforked other later)
  · intro other
    show other ∈ s.counted ↔ (s.turn k .zombie).child other = .collected
    by_cases same : other = k
    · rw [exactly other, same, alive, turn_self]
      simp
    · rw [exactly other, turn_other s k other .zombie same]

theorem invariant_reap (invariant : Invariant n s) (k : Nat) (here : s.handler = .looping)
    (found : s.child k = .zombie) :
    Invariant n { s.turn k .collected with reaped := s.reaped + 1, counted := k :: s.counted } := by
  obtain ⟨bound, unforked, exactly, distinct, count, signalled⟩ := invariant
  -- a child is collected once: before that it was a zombie
  have fresh : k ∉ s.counted := by
    intro member
    rw [exactly k, found] at member
    simp at member
  refine ⟨bound, ?_, ?_, List.nodup_cons.mpr ⟨fresh, distinct⟩, ?_, fun _ _ => Or.inr here⟩
  · intro other later
    have different : other ≠ k := by
      rintro rfl
      rw [unforked other later] at found
      simp at found
    exact (turn_other s k other .collected different).trans (unforked other later)
  · intro other
    show other ∈ k :: s.counted ↔ (s.turn k .collected).child other = .collected
    by_cases same : other = k
    · simp [same]
    · rw [turn_other s k other .collected same, List.mem_cons, exactly other]
      simp [same]
  · show s.reaped + 1 = (k :: s.counted).length
    rw [count, List.length_cons]

theorem invariant_step (before after : State) (event : Event) (invariant : Invariant n before)
    (next : Step n before event after) : Invariant n after := by
  cases next with
  | fork idle here more => exact invariant_fork invariant more
  | forkFails idle here more =>
      obtain ⟨bound, unforked, exactly, distinct, count, signalled⟩ := invariant
      exact ⟨more, fun k later => unforked k (Nat.le_of_succ_le later), exactly, distinct, count,
        signalled⟩
  | exit alive => exact invariant_exit invariant _ alive
  | deliver waiting unblocked =>
      -- the signal is consumed, but the handler is in its loop
      obtain ⟨bound, unforked, exactly, distinct, count, signalled⟩ := invariant
      exact ⟨bound, unforked, exactly, distinct, count, fun _ _ => Or.inr rfl⟩
  | reap here found => exact invariant_reap invariant _ here found
  | drained here none =>
      obtain ⟨bound, unforked, exactly, distinct, count, signalled⟩ := invariant
      exact ⟨bound, unforked, exactly, distinct, count, fun k zombie => absurd zombie (none k)⟩
  | ret here =>
      obtain ⟨bound, unforked, exactly, distinct, count, signalled⟩ := invariant
      -- the handler is past its loop, so a zombie left now has its signal pending
      refine ⟨bound, unforked, exactly, distinct, count, fun k zombie => Or.inl ?_⟩
      exact (signalled k zombie).resolve_right (by simp [here])
  | start idle here done =>
      obtain ⟨bound, unforked, exactly, distinct, count, signalled⟩ := invariant
      exact ⟨bound, unforked, exactly, distinct, count, signalled⟩
  | loop idle moves =>
      obtain ⟨bound, unforked, exactly, distinct, count, signalled⟩ := invariant
      exact ⟨bound, unforked, exactly, distinct, count, signalled⟩

end Steps

theorem run_invariant (n : Nat) (s : State) (run : Run n s) : Invariant n s := by
  apply reachable_invariant (system n) (Invariant n) _ _ s run
  · rintro first rfl
    exact ⟨Nat.zero_le n, fun _ _ => rfl, by simp [initial], List.nodup_nil, rfl, by simp [initial]⟩
  · exact fun before event after => invariant_step before after event

theorem reaped_eq_exited (n : Nat) (s : State) (invariant : Invariant n s)
    (clean : ∀ k, s.child k ≠ .zombie) : s.reaped = exitedCount n s := by
  obtain ⟨bound, unforked, exactly, distinct, count, -⟩ := invariant
  -- both are the children that have exited, each listed once
  have same : s.counted.Perm ((List.range n).filter fun k => (s.child k).exited) := by
    apply (List.perm_ext_iff_of_nodup distinct (List.nodup_range.filter _)).mpr
    intro k
    rw [exactly k, List.mem_filter, List.mem_range]
    constructor
    · intro collected
      refine ⟨?_, by simp [collected, Status.exited]⟩
      by_contra late
      rw [unforked k (by omega)] at collected
      simp at collected
    · rintro ⟨-, gone⟩
      cases status : s.child k with
      | collected => rfl
      | zombie => exact absurd status (clean k)
      | running => simp [status, Status.exited] at gone
      | unforked => simp [status, Status.exited] at gone
  rw [exitedCount, List.countP_eq_length_filter, ← same.length_eq, count]

/-- `reaped` counts the collected children, each once, and no zombie is left once
no signal is pending and the handler does not run. -/
structure Accounted (n : Nat) (s : State) : Prop where
  reaped : s.reaped = s.counted.length
  collected : ∀ k, k ∈ s.counted ↔ s.child k = .collected
  once : s.counted.Nodup
  clean : s.pending = false → s.handler = .idle → ∀ k, s.child k ≠ .zombie
  exited : s.pending = false → s.handler = .idle → s.reaped = exitedCount n s

theorem no_child_lost (n : Nat) (s : State) (run : Run n s) : Accounted n s := by
  have invariant := run_invariant n s run
  have clean : s.pending = false → s.handler = .idle → ∀ k, s.child k ≠ .zombie := by
    intro quiet idle k zombie
    rcases invariant.signalled k zombie with waiting | looping
    · simp [quiet] at waiting
    · simp [idle] at looping
  exact ⟨invariant.count, invariant.exactly, invariant.distinct, clean,
    fun quiet idle => reaped_eq_exited n s invariant (clean quiet idle)⟩

theorem no_child_lost_between : ∃ s : State, s.handler = .idle ∧ s.child 1 = .zombie ∧
    s.pending = true ∧ s.reaped = 1 ∧ Accounted 2 s := by
  have start : Run 2 initial := .start rfl
  have first := Reachable.step start (.fork rfl rfl (by decide))
  have second := Reachable.step first (.fork rfl rfl (by decide))
  have exited := Reachable.step second (.exit (k := 0) (by decide))
  have handled := Reachable.step exited (.deliver rfl rfl)
  have reaped := Reachable.step handled (.reap (k := 0) rfl (by decide))
  have none : ∀ k, Function.update (Function.update (Function.update (Function.update
      initial.child 0 .running) 1 .running) 0 .zombie) 0 .collected k ≠ Status.zombie := by
    intro k
    by_cases first : k = 0
    · simp [first]
    · by_cases second : k = 1
      · simp [second]
      · simp [first, second, initial]
  have drained := Reachable.step reaped (.drained rfl none)
  have again := Reachable.step drained (.exit (k := 1) (by decide))
  have returned := Reachable.step again (.ret rfl)
  exact ⟨_, rfl, by decide, rfl, rfl, no_child_lost 2 _ returned⟩

end LinuxMemory.Sigchld
