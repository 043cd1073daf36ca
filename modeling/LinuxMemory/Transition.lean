import Mathlib.Data.List.Basic

/-!
Labelled transition systems: reachable states, and the rules by which a property
of one step becomes a property of every run: invariance, progress to the end,
simulation by a more abstract system, and lockstep of two runs that make the same
calls.
-/

namespace LinuxMemory.Transition

variable {State Abstract Event Call : Type}

structure System (State Event : Type) where
  start : State → Prop
  step : State → Event → State → Prop

inductive Reachable (system : System State Event) : State → Prop where
  | start {state : State} (initial : system.start state) : Reachable system state
  | step {before after : State} {event : Event} (run : Reachable system before)
      (next : system.step before event after) : Reachable system after

/-- What holds at the start and survives every step holds in every run. -/
theorem reachable_invariant (system : System State Event) (invariant : State → Prop)
    (initially : ∀ state, system.start state → invariant state)
    (preserved : ∀ before event after, invariant before → system.step before event after →
      invariant after)
    (state : State) (run : Reachable system state) : invariant state := by
  induction run with
  | start initial => exact initially _ initial
  | step _ next ih => exact preserved _ _ _ ih next

/-- The runs in which every step is an allowed one. -/
def System.guarded (system : System State Event) (allowed : State → Event → Prop) :
    System State Event :=
  ⟨system.start, fun before event after => allowed before event ∧ system.step before event after⟩

theorem guarded_reachable (system : System State Event) (allowed : State → Event → Prop)
    (state : State) (run : Reachable (system.guarded allowed) state) : Reachable system state := by
  induction run with
  | start initial => exact Reachable.start initial
  | step _ next ih => exact Reachable.step ih next.2

theorem guarded_step (system : System State Event) (allowed : State → Event → Prop)
    (before after : State) (event : Event) (run : Reachable (system.guarded allowed) before)
    (next : system.step before event after) (here : allowed before event) :
    Reachable (system.guarded allowed) after :=
  Reachable.step run ⟨here, next⟩

/-- The runs with the peak of a measure over the states passed so far. -/
def System.tracked (system : System State Event) (measure : State → Nat) :
    System (State × Nat) Event :=
  ⟨fun state => system.start state.1 ∧ state.2 = measure state.1,
    fun before event after =>
      system.step before.1 event after.1 ∧ after.2 = max before.2 (measure after.1)⟩

/-- A stretch of a run with the events of its steps in order. -/
inductive Path (system : System State Event) : State → List Event → State → Prop where
  | nil {state : State} : Path system state [] state
  | cons {before middle after : State} {event : Event} {events : List Event}
      (next : system.step before event middle) (rest : Path system middle events after) :
      Path system before (event :: events) after

theorem path_reachable (system : System State Event) (before after : State) (events : List Event)
    (run : Reachable system before) (path : Path system before events after) :
    Reachable system after := by
  induction path with
  | nil => exact run
  | cons next _ ih => exact ih (Reachable.step run next)

theorem path_append (system : System State Event) (first middle last : State)
    (events later : List Event) (path : Path system first events middle)
    (rest : Path system middle later last) : Path system first (events ++ later) last := by
  induction path with
  | nil => exact rest
  | cons next _ ih => exact Path.cons next (ih rest)

theorem path_split (system : System State Event) (first last : State) (events later : List Event)
    (path : Path system first (events ++ later) last) :
    ∃ middle, Path system first events middle ∧ Path system middle later last := by
  induction events generalizing first with
  | nil => exact ⟨first, .nil, path⟩
  | cons event events ih =>
      cases path with
      | cons next rest =>
          obtain ⟨middle, before, behind⟩ := ih _ rest
          exact ⟨middle, .cons next before, behind⟩

/-- Runs that come to an end. A step spends some of the work that is left, except for an
idle one (a turn of a waiting loop), which changes nothing; short of the end some
step that is not idle can be taken. -/
structure Progress (system : System State Event) (idle : Event → Bool) (final : State → Prop)
    (work : State → Nat) : Prop where
  spends : ∀ before event after, Reachable system before → system.step before event after →
    idle event = false → work after < work before
  waits : ∀ before event after, system.step before event after → idle event = true → after = before
  moves : ∀ state, Reachable system state → ¬ final state →
    ∃ event after, idle event = false ∧ system.step state event after

section Progress
variable {system : System State Event} {idle : Event → Bool} {final : State → Prop}
variable {work : State → Nat}

theorem progress_bounded (progress : Progress system idle final work) (before after : State)
    (events : List Event) (run : Reachable system before) (path : Path system before events after) :
    (events.filter (fun event => !idle event)).length + work after ≤ work before := by
  induction path with
  | nil => simp
  | @cons before middle after event events next _ ih =>
      have further := ih (Reachable.step run next)
      cases idles : idle event with
      | true =>
          rw [List.filter_cons_of_neg (by simp [idles])]
          rw [progress.waits _ _ _ next idles] at further
          exact further
      | false =>
          have less := progress.spends _ _ _ run next idles
          rw [List.filter_cons_of_pos (by simp [idles]), List.length_cons]
          omega

theorem progress_finishes (progress : Progress system idle final work) (state : State)
    (run : Reachable system state) : ∃ events after, Path system state events after ∧ final after := by
  obtain ⟨bound, least⟩ : ∃ bound, work state = bound := ⟨_, rfl⟩
  induction bound using Nat.strongRecOn generalizing state with
  | _ bound ih =>
      by_cases ended : final state
      · exact ⟨[], state, .nil, ended⟩
      · obtain ⟨event, middle, active, next⟩ := progress.moves state run ended
        have less := progress.spends _ _ _ run next active
        obtain ⟨events, after, path, ended⟩ := ih (work middle) (by omega) middle (.step run next) rfl
        exact ⟨event :: events, after, .cons next path, ended⟩

/-- Where nothing but waiting is left, the run is at its end. -/
theorem progress_stuck (progress : Progress system idle final work) (state : State)
    (run : Reachable system state)
    (stuck : ∀ event after, system.step state event after → idle event = true) : final state := by
  by_contra unfinished
  obtain ⟨event, after, active, next⟩ := progress.moves state run unfinished
  rw [stuck event after next] at active
  contradiction

/-- Systems in which nothing waits: every step is progress. -/
theorem progress_busy
    (spends : ∀ before event after, Reachable system before → system.step before event after →
      work after < work before)
    (moves : ∀ state, Reachable system state → ¬ final state → ∃ event after, system.step state event after) :
    Progress system (fun _ => false) final work where
  spends := fun before event after run next _ => spends before event after run next
  waits := by
    intro before event after _ idles
    contradiction
  moves := by
    intro state run unfinished
    obtain ⟨event, after, next⟩ := moves state run unfinished
    exact ⟨event, after, rfl, next⟩

theorem busy_bounded (progress : Progress system (fun _ => false) final work) (before after : State)
    (events : List Event) (run : Reachable system before) (path : Path system before events after) :
    events.length + work after ≤ work before := by
  have bounded := progress_bounded progress before after events run path
  simpa only [Bool.not_false, List.filter_true] using bounded

theorem busy_stuck (progress : Progress system (fun _ => false) final work) (state : State)
    (run : Reachable system state) (stuck : ∀ event after, ¬ system.step state event after) : final state :=
  progress_stuck progress state run fun event after next => absurd next (stuck event after)

theorem work_stops (system : System State Event) (work : State → Nat)
    (spends : ∀ before event after, system.step before event after → work after < work before)
    (state : State) : ∃ events after, Path system state events after ∧
      ∀ event later, ¬ system.step after event later := by
  obtain ⟨bound, least⟩ : ∃ bound, work state = bound := ⟨_, rfl⟩
  induction bound using Nat.strongRecOn generalizing state with
  | _ bound ih =>
      by_cases stuck : ∀ event later, ¬ system.step state event later
      · exact ⟨[], state, .nil, stuck⟩
      · simp only [not_forall, not_not] at stuck
        obtain ⟨event, middle, next⟩ := stuck
        have less := spends _ _ _ next
        obtain ⟨events, after, path, ended⟩ := ih (work middle) (by omega) middle rfl
        exact ⟨event :: events, after, .cons next path, ended⟩

end Progress

/-- Every concrete step is matched by an abstract step with the same label. -/
structure Simulation (concrete : System State Event) (abstract : System Abstract Event)
    (related : State → Abstract → Prop) : Prop where
  start : ∀ state, concrete.start state → ∃ view, abstract.start view ∧ related state view
  step : ∀ before view event after, related before view → concrete.step before event after →
    ∃ view', abstract.step view event view' ∧ related after view'

section Simulation
variable {concrete : System State Event} {abstract : System Abstract Event}
variable {related : State → Abstract → Prop}

theorem simulation_reachable (simulation : Simulation concrete abstract related) (state : State)
    (run : Reachable concrete state) : ∃ view, Reachable abstract view ∧ related state view := by
  induction run with
  | start initial =>
      obtain ⟨view, begins, rel⟩ := simulation.start _ initial
      exact ⟨view, Reachable.start begins, rel⟩
  | step _ next ih =>
      obtain ⟨view, reached, rel⟩ := ih
      obtain ⟨view', follows, rel'⟩ := simulation.step _ _ _ _ rel next
      exact ⟨view', Reachable.step reached follows, rel'⟩

end Simulation

/-- Two states that answer every call alike. A `call` is what an event asks for;
an event that asks for nothing is silent and keeps the states twins. -/
structure Lockstep (system : System State Event) (call : Event → Option Call)
    (twin : State → State → Prop) : Prop where
  symm : ∀ left right, twin left right → twin right left
  silent : ∀ left right event after, twin left right → call event = none →
    system.step left event after → twin after right
  together : ∀ left right event event' left' right', twin left right → call event = call event' →
    (call event).isSome → system.step left event left' → system.step right event' right' →
    event = event' ∧ twin left' right'

section Lockstep
variable {system : System State Event} {call : Event → Option Call} {twin : State → State → Prop}

theorem lockstep_silent (lockstep : Lockstep system call twin) (left right after : State)
    (events : List Event) (twins : twin left right) (path : Path system left events after)
    (quiet : events.filterMap call = []) : twin after right := by
  induction path with
  | nil => exact twins
  | cons next _ ih =>
      rw [List.filterMap_eq_nil_iff] at quiet
      have first := lockstep.silent _ _ _ _ twins (quiet _ List.mem_cons_self) next
      apply ih first
      rw [List.filterMap_eq_nil_iff]
      exact fun event member => quiet event (List.mem_cons_of_mem _ member)

theorem path_next (before after : State) (events : List Event) (asked : Call) (later : List Call)
    (path : Path system before events after) (calls : events.filterMap call = asked :: later) :
    ∃ quiet event rest middle middle', events = quiet ++ event :: rest ∧
      quiet.filterMap call = [] ∧ call event = some asked ∧ rest.filterMap call = later ∧
      Path system before quiet middle ∧ system.step middle event middle' ∧
      Path system middle' rest after := by
  induction path with
  | nil => simp at calls
  | @cons before middle after event events next rest ih =>
      cases answer : call event with
      | none =>
          rw [List.filterMap_cons_none answer] at calls
          obtain ⟨quiet, first, others, here, there, shape, silent, found, remaining, path, step,
            tail⟩ := ih calls
          refine ⟨event :: quiet, first, others, here, there, by rw [shape]; rfl, ?_, found,
            remaining, Path.cons next path, step, tail⟩
          rw [List.filterMap_cons_none answer, silent]
      | some given =>
          rw [List.filterMap_cons_some answer] at calls
          obtain ⟨same, remaining⟩ := List.cons.inj calls
          exact ⟨[], event, events, before, middle, rfl, rfl, same ▸ answer, remaining, Path.nil,
            next, rest⟩

/-- Two runs that make the same calls see the same events at them. The induction
runs over the left path; at each of its calls the right one is brought there. -/
theorem lockstep_events (lockstep : Lockstep system call twin) (left right left' right' : State)
    (events events' : List Event) (twins : twin left right) (path : Path system left events left')
    (path' : Path system right events' right')
    (same : events.filterMap call = events'.filterMap call) :
    events.filter (fun event => (call event).isSome) =
      events'.filter (fun event => (call event).isSome) ∧ twin left' right' := by
  have unheard : ∀ quiet : List Event, quiet.filterMap call = [] →
      quiet.filter (fun event => (call event).isSome) = [] := by
    intro quiet silent
    rw [List.filterMap_eq_nil_iff] at silent
    rw [List.filter_eq_nil_iff]
    intro event member
    simp [silent event member]
  induction path generalizing right events' with
  | nil =>
      have silent : events'.filterMap call = [] := same.symm
      refine ⟨(unheard events' silent).symm, lockstep.symm _ _ ?_⟩
      exact lockstep_silent lockstep _ _ _ _ (lockstep.symm _ _ twins) path' silent
  | @cons before middle after event events next _ ih =>
      cases answer : call event with
      | none =>
          rw [List.filterMap_cons_none answer] at same
          have further := ih right events' (lockstep.silent _ _ _ _ twins answer next) path' same
          rw [List.filter_cons_of_neg (by simp [answer])]
          exact further
      | some asked =>
          rw [List.filterMap_cons_some answer] at same
          obtain ⟨quiet, event', rest, here, there, rfl, silent, found, remaining, before', step,
            tail⟩ := path_next right right' events' asked _ path' same.symm
          have level := lockstep.symm _ _
            (lockstep_silent lockstep _ _ _ _ (lockstep.symm _ _ twins) before' silent)
          obtain ⟨rfl, onward⟩ := lockstep.together _ _ _ _ _ _ level (answer.trans found.symm)
            (by simp [answer]) next step
          obtain ⟨equal, final⟩ := ih there rest onward tail remaining.symm
          refine ⟨?_, final⟩
          rw [List.filter_append, unheard quiet silent, List.nil_append,
            List.filter_cons_of_pos (by simp [answer]), List.filter_cons_of_pos (by simp [answer]),
            equal]

end Lockstep

end LinuxMemory.Transition
