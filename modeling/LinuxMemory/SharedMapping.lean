import LinuxMemory.Mappings
import LinuxMemory.Transition

/-!
`03_shared_mmap.c` from the return of `fork` on, with the flag of its `mmap` left open: the
child waits for the parent's store, which a shared mapping lets it see and a private one
never does. The sleeps are left out. Standard output is a terminal: a line is written at
its end, before the `_exit` of the child.
-/

namespace LinuxMemory.SharedMapping

open Mappings Transition

inductive Flag where
  | mapShared
  | mapPrivate

/-- The mapping that `mmap` returns, of one object that nobody else knows. -/
def Flag.mapping : Flag → Mapping Unit Int
  | .mapShared => .mapShared ()
  | .mapPrivate => .mapPrivate () fun _ => none

def page (i : Nat) : Nat := i / 1024

/-- `*p = 0` before the `fork`: the object, and the mapping of both processes. -/
def forked (flag : Flag) : Objects Unit Int × Mapping Unit Int :=
  flag.mapping.write page (fun _ _ => 0) 0 0

inductive Parent where
  | sleeping
  | waiting
  | finished

inductive Child where
  | spinning
  | leaving
  | exited

structure State where
  objects : Objects Unit Int
  parentP : Mapping Unit Int
  childP : Mapping Unit Int
  parent : Parent
  child : Child
  -- what the child prints
  output : List Int

inductive Event where
  | stores | spins | leaves | prints | waited

inductive Step : State → Event → State → Prop where
  | stores {s : State} (here : s.parent = .sleeping) :
      Step s .stores { s with
        objects := (s.parentP.write page s.objects 0 42).1
        parentP := (s.parentP.write page s.objects 0 42).2, parent := .waiting }
  | spins {s : State} (here : s.child = .spinning) (unset : s.childP.read page s.objects 0 = 0) :
      Step s .spins s
  | leaves {s : State} (here : s.child = .spinning) (set : s.childP.read page s.objects 0 ≠ 0) :
      Step s .leaves { s with child := .leaving }
  | prints {s : State} (here : s.child = .leaving) :
      Step s .prints { s with
        child := .exited, output := s.output ++ [s.childP.read page s.objects 0] }
  | waited {s : State} (here : s.parent = .waiting) (ended : s.child = .exited) :
      Step s .waited { s with parent := .finished }

def initial (flag : Flag) : State :=
  ⟨(forked flag).1, (forked flag).2, (forked flag).2, .sleeping, .spinning, []⟩

def system (flag : Flag) : System State Event := ⟨(· = initial flag), Step⟩

abbrev Run (flag : Flag) : State → Prop := Reachable (system flag)

def idle : Event → Bool
  | .spins => true
  | _ => false

def stored (flag : Flag) : Objects Unit Int := ((forked flag).2.write page (forked flag).1 0 42).1

structure Sound (flag : Flag) (s : State) : Prop where
  before : s.parent = .sleeping → s.objects = (forked flag).1 ∧ s.parentP = (forked flag).2
  behind : s.parent ≠ .sleeping → s.objects = stored flag
  childP : s.childP = (forked flag).2
  left : s.child ≠ .spinning → flag = .mapShared ∧ s.parent ≠ .sleeping
  ended : s.parent = .finished → s.child = .exited
  output : s.output = match s.child with
    | .exited => [42]
    | _ => []

theorem read_before (flag : Flag) : (forked flag).2.read page (forked flag).1 0 = 0 := by
  rw [forked, read_write, Function.update_self]

theorem read_shared : (forked .mapShared).2.read page (stored .mapShared) 0 = 42 := by
  have own := read_write page (forked .mapShared).1 (.mapShared ()) 0 42
  exact (congrFun own 0).trans (Function.update_self ..)

theorem read_private : (forked .mapPrivate).2.read page (stored .mapPrivate) 0 = 0 :=
  (private_read () _ 0 _ rfl).trans (read_before .mapPrivate)

section Steps
variable {flag : Flag} {before after s : State} {event : Event}

theorem sound_read (sound : Sound flag s) (set : s.childP.read page s.objects 0 ≠ 0) :
    flag = .mapShared ∧ s.parent ≠ .sleeping := by
  rw [sound.childP] at set
  have awake : s.parent ≠ .sleeping := fun early =>
    set (by rw [(sound.before early).1]; exact read_before flag)
  rw [sound.behind awake] at set
  cases flag with
  | mapShared => exact ⟨rfl, awake⟩
  | mapPrivate => exact absurd read_private set

theorem sound_step (sound : Sound flag before) (next : Step before event after) : Sound flag after := by
  cases next with
  | stores here =>
      obtain ⟨objects, mapping⟩ := sound.before here
      refine ⟨by simp, fun _ => ?_, sound.childP, ?_, by simp, sound.output⟩
      · rw [objects, mapping]
        rfl
      · exact fun left => absurd here (sound.left left).2
  | spins here unset => exact sound
  | leaves here set =>
      have seen := sound_read sound set
      refine ⟨sound.before, sound.behind, sound.childP, fun _ => seen, ?_, ?_⟩
      · intro finished
        rw [sound.ended finished] at here
        contradiction
      · rw [sound.output, here]
  | prints here =>
      obtain ⟨rfl, awake⟩ := sound.left (by rw [here]; simp)
      have silent : before.output = [] := by rw [sound.output, here]
      refine ⟨sound.before, sound.behind, sound.childP, fun _ => ⟨rfl, awake⟩, fun _ => rfl, ?_⟩
      rw [silent, sound.childP, sound.behind awake, read_shared]
      rfl
  | waited here ended =>
      exact ⟨by simp, fun _ => sound.behind (by rw [here]; simp), sound.childP,
        fun left => ⟨(sound.left left).1, by simp⟩, fun _ => ended, sound.output⟩

theorem run_sound (s : State) (run : Run flag s) : Sound flag s := by
  apply reachable_invariant (system flag) (Sound flag) _ _ s run
  · rintro first rfl
    exact ⟨fun _ => ⟨rfl, rfl⟩, fun awake => absurd rfl awake, rfl, fun left => absurd rfl left,
      by simp [initial], rfl⟩
  · exact fun before event after sound next => sound_step sound next

end Steps

/-! Every run of the shared mapping ends. -/

def Parent.work : Parent → Nat
  | .sleeping => 2
  | .waiting => 1
  | .finished => 0

def Child.work : Child → Nat
  | .spinning => 2
  | .leaving => 1
  | .exited => 0

def State.work (s : State) : Nat := s.parent.work + s.child.work

theorem run_progress : Progress (system .mapShared) idle (fun s => s.parent = .finished) State.work where
  spends := by
    intro before event after _ next busy
    cases next with
    | stores here | waited here => simp [State.work, Parent.work, here]
    | spins here unset => cases busy
    | leaves here | prints here => simp [State.work, Child.work, here]
  waits := by
    intro before event after next idles
    cases next with
    | spins here unset => rfl
    | _ => cases idles
  moves := by
    intro s run unfinished
    have sound := run_sound s run
    cases place : s.parent with
    | finished => exact absurd place unfinished
    | sleeping => exact ⟨_, _, rfl, .stores place⟩
    | waiting =>
        cases there : s.child with
        | leaving => exact ⟨_, _, rfl, .prints there⟩
        | exited => exact ⟨_, _, rfl, .waited place there⟩
        | spinning =>
            refine ⟨_, _, rfl, .leaves there ?_⟩
            rw [sound.childP, sound.behind (by rw [place]; simp), read_shared]
            decide

/-- In every interleaving the child prints nothing but the stored 42. Where only turns of
its loop are left, the parent is done if and only if the mapping is shared; with a private
one the child never leaves the loop. -/
theorem store_seen (flag : Flag) (s : State) (run : Run flag s) :
    (s.output = [] ∨ s.output = [42]) ∧ (flag = .mapPrivate → s.child = .spinning) ∧
    ((∀ event after, Step s event after → idle event = true) →
      (s.parent = .finished ↔ flag = .mapShared) ∧ (flag = .mapShared → s.output = [42])) := by
  have sound := run_sound s run
  have shared : s.child ≠ .spinning → flag = .mapShared := fun left => (sound.left left).1
  refine ⟨?_, ?_, ?_⟩
  · rw [sound.output]
    cases s.child with
    | exited => exact .inr rfl
    | _ => exact .inl rfl
  · rintro rfl
    by_contra left
    cases shared left
  · intro stuck
    constructor
    · constructor
      · exact fun finished => shared (by rw [sound.ended finished]; simp)
      · rintro rfl
        exact progress_stuck run_progress s run stuck
    · rintro rfl
      rw [sound.output, sound.ended (progress_stuck run_progress s run stuck)]

theorem store_seen_shared : ∃ s, Run .mapShared s ∧ s.parent = .finished ∧ s.output = [42] := by
  obtain ⟨_, s, path, finished⟩ := progress_finishes run_progress (initial .mapShared) (.start rfl)
  have run := path_reachable _ _ _ _ (.start rfl) path
  have ended := (run_sound s run).ended finished
  have stuck : ∀ event after, Step s event after → idle event = true := by
    intro event after next
    cases next with
    | spins here unset => rfl
    | stores here | waited here => rw [finished] at here; cases here
    | leaves here | prints here => rw [ended] at here; cases here
  exact ⟨s, run, finished, ((store_seen .mapShared s run).2.2 stuck).2 rfl⟩

end LinuxMemory.SharedMapping
