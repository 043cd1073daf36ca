import Mathlib.Algebra.GroupWithZero.Nat
import LinuxMemory.Transition

/-!
The hand-off of `10_ipc_memory/07_eventfd.c` with `n` writes and `n` reads. A
write adds to the counter; a read blocks at 0 and otherwise takes the counter
and resets it. No count is ever lost, but writes that meet before a read are one
count to the reader, who then waits for a write that does not come.
-/

namespace LinuxMemory.Eventfd

open Transition

structure State where
  counter : Nat
  -- the `i` of `worker`: its writes so far
  writes : Nat
  -- the values that `main` has read, the last one first
  values : List Nat

inductive Event where
  | write
  | read (v : Nat)

inductive Step (n : Nat) : State → Event → State → Prop where
  | write {s : State} (more : s.writes < n) :
      Step n s .write { s with counter := s.counter + 1, writes := s.writes + 1 }
  | read {s : State} (more : s.values.length < n) (ready : s.counter ≠ 0) :
      Step n s (.read s.counter) { s with counter := 0, values := s.counter :: s.values }

def initial : State := ⟨0, 0, []⟩

def system (n : Nat) : System State Event := ⟨(· = initial), Step n⟩

abbrev Run (n : Nat) : State → Prop := Reachable (system n)

def Stuck (n : Nat) (s : State) : Prop :=
  s.writes = n ∧ s.counter = 0 ∧ s.values.length < n

/-- The write does not meet one that has not been read yet. -/
def Separate (s : State) : Event → Prop
  | .write => s.counter = 0
  | .read _ => True

def wakeups (s : State) : Nat := s.values.length + if s.counter = 0 then 0 else 1

section Steps
variable {n : Nat}

/-- What every step keeps: no count is lost, and no more wake-ups than writes. -/
structure Conserved (n : Nat) (s : State) : Prop where
  total : s.values.sum + s.counter = s.writes
  bound : s.writes ≤ n
  fewer : wakeups s ≤ s.writes

theorem conserved_step (before after : State) (event : Event) (conserved : Conserved n before)
    (next : Step n before event after) : Conserved n after := by
  obtain ⟨total, bound, fewer⟩ := conserved
  cases next with
  -- a write adds one to both sides, and a wake-up only if the counter was 0
  | write more =>
      refine ⟨?_, more, ?_⟩
      · show before.values.sum + (before.counter + 1) = before.writes + 1
        omega
      · unfold wakeups at *
        simp only [Nat.add_eq_zero_iff, Nat.one_ne_zero, and_false, ↓reduceIte]
        split at fewer <;> omega
  | read more ready =>
      refine ⟨?_, bound, ?_⟩
      · show (before.counter :: before.values).sum + 0 = before.writes
        rw [List.sum_cons]
        omega
      · unfold wakeups at *
        rw [if_neg ready] at fewer
        simpa using fewer

theorem run_conserved (s : State) (run : Run n s) : Conserved n s := by
  apply reachable_invariant (system n) (Conserved n) _ _ s run
  · rintro first rfl
    exact ⟨rfl, Nat.zero_le n, Nat.le_refl 0⟩
  · exact fun before event after => conserved_step before after event

/-- Without merged writes every write is a wake-up. -/
theorem separate_wakeups (s : State) (run : Reachable ((system n).guarded Separate) s) :
    wakeups s = s.writes := by
  apply reachable_invariant ((system n).guarded Separate) (fun s => wakeups s = s.writes) _ _ s run
  · rintro first rfl
    rfl
  · rintro before event after equal ⟨separate, next⟩
    cases next with
    | write more =>
        have empty : before.counter = 0 := separate
        unfold wakeups at *
        simp [empty] at equal ⊢
        exact equal
    | read more ready =>
        unfold wakeups at *
        rw [if_neg ready] at equal
        simpa using equal

theorem separate_never_stuck (s : State) (run : Reachable ((system n).guarded Separate) s) :
    ¬ Stuck n s := by
  rintro ⟨finished, empty, waiting⟩
  have equal := separate_wakeups s run
  unfold wakeups at equal
  rw [if_pos empty] at equal
  omega

/-! Once two writes have met, the reads can no longer be as many as the writes. -/

theorem worker_finishes (left : Nat) (s : State) (remaining : s.writes + left = n)
    (behind : wakeups s < s.writes) : ∃ events after, Path (system n) s events after ∧
      after.writes = n ∧ wakeups after < n := by
  induction left generalizing s with
  | zero => exact ⟨[], s, .nil, remaining, by omega⟩
  | succ left ih =>
      -- the worker runs on alone; a write adds at most one wake-up
      have behind' : wakeups ⟨s.counter + 1, s.writes + 1, s.values⟩ < s.writes + 1 := by
        unfold wakeups at *
        simp only [Nat.add_eq_zero_iff, Nat.one_ne_zero, and_false, ↓reduceIte]
        split at behind <;> omega
      obtain ⟨events, after, path, done⟩ := ih ⟨s.counter + 1, s.writes + 1, s.values⟩
        (by show s.writes + 1 + left = n; omega) behind'
      exact ⟨_, after, .cons (.write (by omega)) path, done⟩

theorem behind_sticks (s : State) (bound : s.writes ≤ n) (behind : wakeups s < s.writes) :
    ∃ events after, Path (system n) s events after ∧ Stuck n after := by
  obtain ⟨events, middle, path, finished, few⟩ :=
    worker_finishes (n := n) (n - s.writes) s (by omega) behind
  unfold wakeups at few
  by_cases empty : middle.counter = 0
  · rw [if_pos empty] at few
    exact ⟨events, middle, path, finished, empty, few⟩
  · -- one read takes everything that is left
    rw [if_neg empty] at few
    have last : Path (system n) middle [.read middle.counter] _ := .cons (.read (by omega) empty) .nil
    refine ⟨_, _, path_append _ _ _ _ _ _ path last, finished, rfl, ?_⟩
    simpa using few

theorem merged_sticks (before after : State) (event : Event) (run : Run n before)
    (next : Step n before event after) (merged : ¬ Separate before event) :
    ∃ events later, Path (system n) after events later ∧ Stuck n later := by
  have conserved := run_conserved before run
  cases next with
  | write more =>
      have unread : before.counter ≠ 0 := merged
      have fewer := conserved.fewer
      apply behind_sticks _ more
      unfold wakeups at *
      rw [if_neg unread] at fewer
      simpa using Nat.lt_succ_of_le fewer
  | read _ _ => exact absurd trivial merged

end Steps

/-- The counts always add up. A run in which each write finds the last one read
is never stuck, and a write that does not is followed by a stuck state in some
run. -/
theorem handoff (n : Nat) : (∀ s, Run n s → s.values.sum + s.counter = s.writes) ∧
    (∀ s, Reachable ((system n).guarded Separate) s → ¬ Stuck n s) ∧
    (∀ before event after, Run n before → Step n before event after → ¬ Separate before event →
      ∃ events later, Path (system n) after events later ∧ Stuck n later) := by
  refine ⟨fun s run => (run_conserved s run).total, separate_never_stuck, ?_⟩
  intro before event after run next merged
  exact merged_sticks before after event run next merged

theorem handoff_paired : (¬ Stuck 1 ⟨0, 1, [1]⟩ ∧ [1].sum + 0 = 1) ∧
    ∃ events later, Path (system 2) ⟨2, 2, []⟩ events later ∧ Stuck 2 later := by
  constructor
  · have start : Reachable ((system 1).guarded Separate) initial := .start rfl
    have written := guarded_step _ _ _ _ _ start (.write (by decide)) rfl
    have read := guarded_step _ _ _ _ _ written (.read (by decide) (by decide)) trivial
    exact ⟨(handoff 1).2.1 _ read, (handoff 1).1 _ (guarded_reachable _ _ _ read)⟩
  · have written : Run 2 ⟨1, 1, []⟩ := .step (.start rfl) (.write (by decide))
    exact (handoff 2).2.2 ⟨1, 1, []⟩ .write _ written (.write (by decide))
      (by show ¬ (1 = 0); decide)

theorem five_writes_stick : ∃ s, Run 5 s ∧ Stuck 5 s := by
  have start : Run 5 initial := .start rfl
  have first := Reachable.step start (.write (by decide))
  have second := Reachable.step first (.write (by decide))
  have third := Reachable.step second (.write (by decide))
  have fourth := Reachable.step third (.write (by decide))
  have fifth := Reachable.step fourth (.write (by decide))
  have read := Reachable.step fifth (.read (by decide) (by decide))
  exact ⟨_, read, rfl, rfl, by decide⟩

end LinuxMemory.Eventfd
