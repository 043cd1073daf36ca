import LinuxMemory.FutexSafety

/-!
No wake-up of the mutex is lost: while a thread sleeps, either the word is 2 and
the owner's exchange will see it, or a thread that is awake has yet to call
`futex_wake` or to exchange the word to 2.
-/

namespace LinuxMemory.Futex

variable {Thread : Type}

def Sleeping (s : State Thread) : Prop := ∃ t, s.pc t = .asleep

/-- Some thread will still wake a sleeper, or mark the word so that its owner does. -/
def Attended (s : State Thread) : Prop :=
  s.m = 2 ∨ (∃ t, s.pc t = .waking) ∨ ∃ t, s.pc t = .swapping

def Attentive (s : State Thread) : Prop := Sleeping s → Attended s

section Steps
variable [DecidableEq Thread]

theorem sleeping_before (s : State Thread) (t : Thread) (next : Pc) (awake : next ≠ .asleep)
    (sleeping : Sleeping (s.goto t next)) : Sleeping s := by
  obtain ⟨u, asleep⟩ := sleeping
  have other : u ≠ t := by
    intro same
    subst u
    rw [goto_here] at asleep
    exact awake asleep
  rw [goto_other s t u next other] at asleep
  exact ⟨u, asleep⟩

theorem attended_goto (s : State Thread) (t : Thread) (next : Pc) (attended : Attended s)
    (idle : s.pc t ≠ .waking) (out : s.pc t ≠ .swapping) : Attended (s.goto t next) := by
  rcases attended with marked | ⟨u, waking⟩ | ⟨u, swapping⟩
  · exact Or.inl marked
  · have other : u ≠ t := by
      intro same
      subst u
      exact idle waking
    exact Or.inr (Or.inl ⟨u, by rw [goto_other s t u next other]; exact waking⟩)
  · have other : u ≠ t := by
      intro same
      subst u
      exact out swapping
    exact Or.inr (Or.inr ⟨u, by rw [goto_other s t u next other]; exact swapping⟩)

theorem attended_swapping (s : State Thread) (t : Thread) : Attended (s.goto t .swapping) :=
  Or.inr (Or.inr ⟨t, goto_here s t .swapping⟩)

theorem attended_waking (s : State Thread) (t : Thread) : Attended (s.goto t .waking) :=
  Or.inr (Or.inl ⟨t, goto_here s t .waking⟩)

theorem attentive_goto (s : State Thread) (t : Thread) (next : Pc) (attentive : Attentive s)
    (idle : s.pc t ≠ .waking) (out : s.pc t ≠ .swapping) (awake : next ≠ .asleep) :
    Attentive (s.goto t next) := by
  intro sleeping
  exact attended_goto s t next (attentive (sleeping_before s t next awake sleeping)) idle out

omit [DecidableEq Thread] in
theorem attentive_word (s : State Thread) (value : Nat) (finished : Nat)
    (left : Thread → Nat) (attentive : Attentive s) (unmarked : s.m ≠ 2) :
    Attentive { s with m := value, finished := finished, left := left } := by
  intro sleeping
  rcases attentive sleeping with marked | waking | swapping
  · contradiction
  · exact Or.inr (Or.inl waking)
  · exact Or.inr (Or.inr swapping)

theorem attentive_step (s s' : State Thread) (t : Thread) (attentive : Attentive s)
    (next : Step True s t s') : Attentive s' := by
  cases next with
  | acquire here more unlocked =>
      -- the fast path writes 1 over 0, with sleepers perhaps still there
      have kept := attentive_word s 1 s.finished (Function.update s.left t (s.left t - 1))
        attentive (by omega)
      refine attentive_goto _ t .locked kept ?_ ?_ ?_ <;> simp [here]
  | contend here more taken => exact fun _ => attended_swapping _ t
  | exchange here => exact fun _ => Or.inl rfl
  | sleep here same => exact fun _ => Or.inl same
  | decline here => exact fun _ => attended_swapping _ t
  | spurious here => exact fun _ => attended_swapping _ t
  | read here =>
      refine attentive_goto s t _ attentive ?_ ?_ ?_ <;> simp [here]
  | write here =>
      refine attentive_goto _ t .unlocking attentive ?_ ?_ ?_ <;> simp [here]
  | release here =>
      by_cases marked : s.m = 2
      · rw [if_pos marked]
        exact fun _ => attended_waking _ t
      · rw [if_neg marked]
        have kept := attentive_word s 0 (s.finished + 1) s.left attentive marked
        refine attentive_goto _ t .outside kept ?_ ?_ ?_ <;> simp [here]
  | @wake woken here sleeper picked =>
      cases woken with
      | none =>
          -- nobody was there to be woken, so nobody sleeps
          intro sleeping
          obtain ⟨u, asleep⟩ := sleeping_before s t .outside (by decide) sleeping
          exact absurd asleep (picked trivial rfl u)
      | some u => exact fun _ => attended_swapping _ u

theorem attentive_run (s : State Thread) (run : Run True s) : Attentive s := by
  refine Transition.reachable_invariant (system True) Attentive ?_ ?_ s run
  · intro s started sleeping
    obtain ⟨t, asleep⟩ := sleeping
    rw [started.2.2.2 t] at asleep
    contradiction
  · intro s t s' attentive next
    exact attentive_step s s' t attentive next

/-- A sleeper is never left behind by threads that are all outside `lock` and
`unlock` with the mutex free. -/
theorem no_lost_wakeup (s : State Thread) (run : Run True s) (t : Thread)
    (asleep : s.pc t = .asleep) :
    (s.m = 2 ∨ (∃ u, s.pc u = .waking) ∨ ∃ u, s.pc u = .swapping) ∧
      ¬ (s.m = 0 ∧ ∀ u, u ≠ t → (s.pc u).inside = false) := by
  have attended : Attended s := attentive_run s run ⟨t, asleep⟩
  refine ⟨attended, ?_⟩
  rintro ⟨unlocked, others⟩
  have elsewhere : ∀ u, s.pc u ≠ .waking ∧ s.pc u ≠ .swapping := by
    intro u
    by_cases same : u = t
    · subst u
      simp [asleep]
    · have outside := others u same
      constructor
      · intro waking
        simp [waking, Pc.inside] at outside
      · intro swapping
        simp [swapping, Pc.inside] at outside
  rcases attended with marked | ⟨u, waking⟩ | ⟨u, swapping⟩
  · omega
  · exact (elsewhere u).1 waking
  · exact (elsewhere u).2 swapping

end Steps

theorem no_lost_wakeup_workers :
    ∃ s : State Bool, s.pc false = .asleep ∧
      ((s.m = 2 ∨ (∃ u, s.pc u = .waking) ∨ ∃ u, s.pc u = .swapping) ∧
        ¬ (s.m = 0 ∧ ∀ u, u ≠ false → (s.pc u).inside = false)) := by
  obtain ⟨s, run, _, asleep, _⟩ := workers_contend True
  exact ⟨s, asleep, no_lost_wakeup s run false asleep⟩

end LinuxMemory.Futex
