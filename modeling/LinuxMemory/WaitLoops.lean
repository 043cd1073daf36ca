import LinuxMemory.Sigchld
import LinuxMemory.SignalHandler

/-!
When the wait loops of `10_sigchld.c` and `06_signal_handler.c` hang. Both read
their variable and enter `pause` in two steps, and both hang if the last signal
is handled in between, and only then.
-/

namespace LinuxMemory.Sigchld

open PauseLoop Transition

/-- Blocked in `pause` with all children reaped and no SIGCHLD on its way. -/
def Hung (n : Nat) (s : State) : Prop :=
  s.pc = .paused ∧ ¬ s.reaped < n ∧ s.pending = false

/-- The last child is not reaped between the read of `reaped` by `main` and the
entry to `pause`. -/
def Timely (n : Nat) (s : State) : Event → Prop
  | .reap _ => s.pc = .entering → s.reaped + 1 < n
  | _ => True

section Steps
variable {n : Nat}

theorem step_effect (before after : State) (event : Event) (next : Step n before event after) :
    Effect State.pc (¬ ·.reaped < n) (·.handler ≠ .idle) before after := by
  cases next with
  | fork idle here _ => exact .ahead (fun busy => busy idle) here (Or.inl here)
  | forkFails idle here _ => exact .ahead (fun busy => busy idle) here (Or.inl here)
  | exit _ => exact .still id Or.inl rfl
  | deliver _ _ => exact .handle id rfl
  | reap here _ => exact .still id (fun _ => Or.inr (by simp [here])) rfl
  | drained here _ => exact .still (fun _ => by simp [here]) Or.inl rfl
  | ret here => exact .still (fun _ => by simp [here]) Or.inl rfl
  | start idle here _ => exact .ahead (fun busy => busy idle) here (Or.inr rfl)
  | loop idle moves => exact .loop (fun busy => busy idle) id moves

theorem step_timely (before after : State) (event : Event) (timely : Timely n before event)
    (next : Step n before event after) :
    PauseLoop.Timely State.pc (¬ ·.reaped < n) before after := by
  intro entering told
  cases next with
  -- only a reap can end the wait
  | reap here found => exact absurd (timely entering) told
  | fork _ _ _ => exact told
  | forkFails _ _ _ => exact told
  | exit _ => exact told
  | deliver _ _ => exact told
  | drained _ _ => exact told
  | ret _ => exact told
  | start _ _ _ => exact told
  | loop _ _ => exact told

theorem never_hung (s : State) (run : Reachable ((system n).guarded (Timely n)) s) :
    ¬ Hung n s := by
  have awake := timely_awake ((system n).guarded (Timely n)) State.pc (¬ ·.reaped < n)
    (·.handler ≠ .idle) (by rintro first rfl; exact ⟨rfl, fun busy => busy rfl⟩)
    (fun before event after next => ⟨step_effect before after event next.2,
      step_timely before after event next.1 next.2⟩) s run
  rintro ⟨blocked, told, -⟩
  exact (awake.untold told).2 blocked

theorem no_zombie_left (s : State) (invariant : Invariant n s) (done : n ≤ s.reaped) (k : Nat) :
    s.child k ≠ .zombie := by
  obtain ⟨bound, unforked, exactly, distinct, count, -⟩ := invariant
  have forked : ∀ other, s.child other ≠ .unforked → other ∈ List.range n := by
    intro other used
    rw [List.mem_range]
    by_contra late
    exact used (unforked other (by omega))
  have inside : s.counted ⊆ List.range n := by
    intro other member
    apply forked
    rw [(exactly other).mp member]
    decide
  -- `n` different children out of `n` are all of them
  have all : s.counted.Perm (List.range n) := by
    apply (List.subperm_of_subset distinct inside).perm_of_length_le
    rw [List.length_range, ← count]
    exact done
  intro zombie
  have member : k ∈ s.counted := all.mem_iff.mpr (forked k (by simp [zombie]))
  rw [exactly k, zombie] at member
  simp at member

structure Late (n : Nat) (s : State) : Prop where
  entering : s.pc = .entering
  told : ¬ s.reaped < n
  clean : ∀ k, s.child k ≠ .zombie

theorem handler_returns (s : State) (late : Late n s) (here : s.handler = .looping) :
    ∃ events after, Path (system n) s events after ∧ Late n after ∧ after.handler = .idle ∧
      after.pending = s.pending :=
  ⟨_, _, .cons (.drained here late.clean) (.cons (.ret rfl) .nil),
    ⟨late.entering, late.told, late.clean⟩, rfl, rfl⟩

theorem quiet_hangs (s : State) (late : Late n s) (idle : s.handler = .idle)
    (quiet : s.pending = false) : ∃ events after, Path (system n) s events after ∧ Hung n after := by
  have enters : LoopStep (¬ s.reaped < n) s.pc .paused := by
    rw [late.entering]
    exact .enter
  exact ⟨_, _, .cons (.loop idle enters) .nil, rfl, late.told, quiet⟩

theorem late_hangs (s : State) (late : Late n s) (here : s.handler = .looping) :
    ∃ events after, Path (system n) s events after ∧ Hung n after := by
  obtain ⟨_, first, path, late, idle, -⟩ := handler_returns s late here
  cases waiting : first.pending with
  | false =>
      obtain ⟨_, after, path', hung⟩ := quiet_hangs first late idle waiting
      exact ⟨_, after, path_append _ _ _ _ _ _ path path', hung⟩
  | true =>
      -- the handler runs once more, finds nothing, and leaves `main` where it is
      have entering : interrupt first.pc = .entering := (interrupt_entering first.pc).mpr late.entering
      obtain ⟨_, second, path', late', idle', quiet⟩ := handler_returns
        { first with pending := false, handler := .looping, pc := interrupt first.pc }
        ⟨entering, late.told, late.clean⟩ rfl
      obtain ⟨_, after, path'', hung⟩ := quiet_hangs second late' idle' quiet
      have further := path_append _ _ _ _ _ _ path' path''
      exact ⟨_, after, path_append _ _ _ _ _ _ path (.cons (.deliver waiting idle) further), hung⟩

/-- Every step that is not timely makes a hang possible. -/
theorem untimely_hangs (before after : State) (event : Event) (run : Run n before)
    (untimely : ¬ Timely n before event) (next : Step n before event after) :
    ∃ events later, Path (system n) after events later ∧ Hung n later := by
  have invariant := run_invariant n after (.step run next)
  cases next with
  | reap here found =>
      have entering : before.pc = .entering := by
        by_contra elsewhere
        exact untimely (fun entering => absurd entering elsewhere)
      have told : ¬ before.reaped + 1 < n := fun more => untimely (fun _ => more)
      exact late_hangs _ ⟨entering, told, no_zombie_left _ invariant (Nat.le_of_not_lt told)⟩ here
  | fork _ _ _ => exact absurd trivial untimely
  | forkFails _ _ _ => exact absurd trivial untimely
  | exit _ => exact absurd trivial untimely
  | deliver _ _ => exact absurd trivial untimely
  | drained _ _ => exact absurd trivial untimely
  | ret _ => exact absurd trivial untimely
  | start _ _ _ => exact absurd trivial untimely
  | loop _ _ => exact absurd trivial untimely

end Steps

/-! The hang with any number of children: all but the last one are reaped while
`main` still forks. -/

/-- Before the fork of child `k`, all earlier ones reaped. -/
structure Between (k : Nat) (s : State) : Prop where
  here : s.pc = .ahead
  idle : s.handler = .idle
  quiet : s.pending = false
  forked : s.i = k
  count : s.reaped = k
  clean : ∀ j, s.child j ≠ .zombie

theorem reaped_in_turn (n k : Nat) (inside : k ≤ n) : ∃ s, Run n s ∧ Between k s := by
  induction k with
  | zero => exact ⟨initial, .start rfl, rfl, rfl, rfl, rfl, rfl, by simp [initial]⟩
  | succ k ih =>
      obtain ⟨s, run, here, idle, quiet, forked, count, clean⟩ := ih (Nat.le_of_succ_le inside)
      have first := Reachable.step run (.fork idle here (by omega))
      have second := Reachable.step first (.exit (k := s.i) (turn_self s s.i .running))
      have third := Reachable.step second (.deliver rfl idle)
      have fourth := Reachable.step third (.reap (k := s.i) rfl (turn_self _ s.i .zombie))
      have none : ∀ j, Function.update (Function.update (Function.update s.child s.i .running)
          s.i .zombie) s.i .collected j ≠ Status.zombie := by
        intro j
        by_cases same : j = s.i
        · simp [same]
        · simpa [same] using clean j
      have fifth := Reachable.step fourth (.drained rfl none)
      have sixth := Reachable.step fifth (.ret rfl)
      have ahead : interrupt s.pc = .ahead := by rw [here]; rfl
      exact ⟨_, sixth, ahead, rfl, rfl, congrArg (· + 1) forked, congrArg (· + 1) count, none⟩

theorem hung_reachable (n : Nat) (some : 0 < n) : ∃ s, Run n s ∧ Hung n s := by
  obtain ⟨s, run, here, idle, quiet, forked, count, clean⟩ := reaped_in_turn n (n - 1) (by omega)
  have first := Reachable.step run (.fork idle here (by omega))
  have second := Reachable.step first (.start idle here (by show s.i + 1 = n; omega))
  have third := Reachable.step second (.loop idle (.stay (by show ¬ ¬ s.reaped < n; omega)))
  have fourth := Reachable.step third (.exit (k := s.i) (turn_self s s.i .running))
  have fifth := Reachable.step fourth (.deliver rfl idle)
  have sixth := Reachable.step fifth (.reap (k := s.i) rfl (turn_self _ s.i .zombie))
  have told : ¬ s.reaped + 1 < n := by omega
  obtain ⟨events, later, path, hung⟩ := late_hangs _
    ⟨rfl, told, no_zombie_left _ (run_invariant n _ sixth) (Nat.le_of_not_lt told)⟩ rfl
  exact ⟨later, path_reachable _ _ _ _ sixth path, hung⟩

end LinuxMemory.Sigchld

namespace LinuxMemory.WaitLoops

open Transition

/-- No run whose steps are all timely hangs, and every step that is not timely
is followed by a hang in some run. -/
theorem hangs_only_untimely (n : Nat) :
    (∀ s, Reachable ((Sigchld.system n).guarded (Sigchld.Timely n)) s → ¬ Sigchld.Hung n s) ∧
    (∀ s, Reachable (SignalHandler.system.guarded SignalHandler.Timely) s → ¬ SignalHandler.Hung s) ∧
    (∀ before event after, Sigchld.Run n before → Sigchld.Step n before event after →
      ¬ Sigchld.Timely n before event →
      ∃ events later, Path (Sigchld.system n) after events later ∧ Sigchld.Hung n later) ∧
    (∀ before event after, SignalHandler.Step before event after →
      ¬ SignalHandler.Timely before event →
      ∃ events later, Path SignalHandler.system after events later ∧ SignalHandler.Hung later) := by
  refine ⟨Sigchld.never_hung, SignalHandler.never_hung, ?_, ?_⟩
  · intro before event after run next untimely
    exact Sigchld.untimely_hangs before after event run untimely next
  · intro before event after next untimely
    exact SignalHandler.untimely_hangs before after event untimely next

theorem hangs_only_untimely_both :
    (∃ s : Sigchld.State, s.reaped = 1 ∧ s.pc = .woken ∧ ¬ Sigchld.Hung 1 s) ∧
    ∃ events later, Path SignalHandler.system
      { SignalHandler.initial with gStop := true, frames := [(.sigint, .setLastsig)], pc := .entering }
      events later ∧ SignalHandler.Hung later := by
  constructor
  · have start : Reachable ((Sigchld.system 1).guarded (Sigchld.Timely 1)) Sigchld.initial := .start rfl
    have first := guarded_step _ _ _ _ _ start (.fork rfl rfl (by decide)) trivial
    have second := guarded_step _ _ _ _ _ first (.start rfl rfl rfl) trivial
    have third := guarded_step _ _ _ _ _ second (.loop rfl (.stay (by decide))) trivial
    have fourth := guarded_step _ _ _ _ _ third (.loop rfl .enter) trivial
    have fifth := guarded_step _ _ _ _ _ fourth (.exit (k := 0) (by decide)) trivial
    have sixth := guarded_step _ _ _ _ _ fifth (.deliver rfl rfl) trivial
    have seventh := guarded_step _ _ _ _ _ sixth (.reap (k := 0) rfl (by decide))
      (fun entering => absurd entering (by decide))
    exact ⟨_, rfl, rfl, (hangs_only_untimely 1).1 _ seventh⟩
  · exact (hangs_only_untimely 1).2.2.2
      { SignalHandler.initial with frames := [(.sigint, .setStop)], pc := .entering } (.handler .setStop) _
      (.setStop rfl) (fun timely => timely rfl)

/-- With the five children of the program, and with one SIGINT. -/
theorem both_programs_hang : (∃ s, Sigchld.Run 5 s ∧ Sigchld.Hung 5 s) ∧
    ∃ s, SignalHandler.Run s ∧ SignalHandler.Hung s :=
  ⟨Sigchld.hung_reachable 5 (by decide), SignalHandler.hung_reachable⟩

end LinuxMemory.WaitLoops
