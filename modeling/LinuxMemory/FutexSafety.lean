import LinuxMemory.Futex
import Mathlib.Data.Option.Basic

/-!
Every interleaving of the mutex is matched step for step by an atomic critical
section, which has an owner or none and counts the visits that are over. The word
says whether there is an owner, and `shared` is the count, except between the
owner's write and its exchange to 0. For a wake-up, the duty to wake a sleeper
always lies with somebody who is awake.
-/

namespace LinuxMemory.Futex

def Pc.holding : Pc → Bool
  | .locked | .loaded _ | .unlocking => true
  | .outside | .swapping | .waiting | .asleep | .waking => false

def Pc.inside : Pc → Bool
  | .swapping | .waiting | .asleep | .waking => true
  | .outside | .locked | .loaded _ | .unlocking => false

variable {Thread : Type}

/-- What the mutex is for: one visitor at a time, each leaving one visit behind. -/
structure Visits (Thread : Type) where
  owner : Option Thread
  done : Nat

inductive Visits.Step : Visits Thread → Thread → Visits Thread → Prop where
  | idle (visits : Visits Thread) (t : Thread) : Step visits t visits
  | enter (done : Nat) (t : Thread) : Step ⟨none, done⟩ t ⟨some t, done⟩
  | leave (done : Nat) (t : Thread) : Step ⟨some t, done⟩ t ⟨none, done + 1⟩

def visiting : Transition.System (Visits Thread) Thread :=
  ⟨fun visits => visits = ⟨none, 0⟩, Visits.Step⟩

def Progress (shared done : Int) : Pc → Prop
  | .loaded value => value = done ∧ shared = done
  | .unlocking => shared = done + 1
  | _ => shared = done

structure Realizes (s : State Thread) (visits : Visits Thread) : Prop where
  holders : ∀ t, (s.pc t).holding = true ↔ visits.owner = some t
  bounded : s.m ≤ 2
  word : s.m = 0 ↔ visits.owner = none
  finished : s.finished = visits.done
  free : visits.owner = none → s.shared = visits.done
  owned : ∀ t, visits.owner = some t → Progress s.shared visits.done (s.pc t)

theorem not_owner (s : State Thread) (visits : Visits Thread) (t : Thread)
    (realizes : Realizes s visits) (idle : (s.pc t).holding = false) : visits.owner ≠ some t := by
  intro owner
  have holding := (realizes.holders t).mpr owner
  rw [idle] at holding
  contradiction

theorem owner_of_holding (s : State Thread) (visits : Visits Thread) (t : Thread)
    (realizes : Realizes s visits) (holding : (s.pc t).holding = true) :
    ∃ done, visits = ⟨some t, done⟩ := by
  cases visits with
  | mk owner done =>
      have mine : owner = some t := (realizes.holders t).mp holding
      exact ⟨done, by rw [mine]⟩

theorem owner_of_unlocked (s : State Thread) (visits : Visits Thread)
    (realizes : Realizes s visits) (unlocked : s.m = 0) : ∃ done, visits = ⟨none, done⟩ := by
  cases visits with
  | mk owner done =>
      have nobody : owner = none := realizes.word.mp unlocked
      exact ⟨done, by rw [nobody]⟩

theorem realizes_left (s : State Thread) (visits : Visits Thread) (left : Thread → Nat)
    (realizes : Realizes s visits) : Realizes { s with left := left } visits :=
  ⟨realizes.holders, realizes.bounded, realizes.word, realizes.finished, realizes.free,
    realizes.owned⟩

theorem realizes_contended (s : State Thread) (visits : Visits Thread)
    (realizes : Realizes s visits) (taken : s.m ≠ 0) : Realizes { s with m := 2 } visits := by
  have owned : visits.owner ≠ none := fun none => taken (realizes.word.mpr none)
  exact ⟨realizes.holders, Nat.le_refl 2, by simp [owned], realizes.finished, realizes.free,
    realizes.owned⟩

theorem realizes_start (s : State Thread) (started : Started s) : Realizes s ⟨none, 0⟩ := by
  obtain ⟨m, shared, finished, outside⟩ := started
  constructor
  · simp [outside, Pc.holding]
  · rw [m]
    exact Nat.zero_le 2
  · simp [m]
  · exact finished
  · simp [shared]
  · simp

section Steps
variable [DecidableEq Thread]

@[simp]
theorem goto_m (s : State Thread) (t : Thread) (next : Pc) : (s.goto t next).m = s.m := rfl

@[simp]
theorem goto_shared (s : State Thread) (t : Thread) (next : Pc) :
    (s.goto t next).shared = s.shared := rfl

@[simp]
theorem goto_finished (s : State Thread) (t : Thread) (next : Pc) :
    (s.goto t next).finished = s.finished := rfl

theorem goto_here (s : State Thread) (t : Thread) (next : Pc) : (s.goto t next).pc t = next := by
  simp [State.goto]

theorem goto_other (s : State Thread) (t u : Thread) (next : Pc) (other : u ≠ t) :
    (s.goto t next).pc u = s.pc u := by
  simp [State.goto, other]

theorem realizes_goto (s : State Thread) (visits : Visits Thread) (t : Thread) (next : Pc)
    (realizes : Realizes s visits) (before : (s.pc t).holding = false)
    (after : next.holding = false) : Realizes (s.goto t next) visits := by
  have stranger := not_owner s visits t realizes before
  constructor
  · intro u
    by_cases same : u = t
    · subst u
      simp [goto_here, after, stranger]
    · rw [goto_other s t u next same]
      exact realizes.holders u
  · exact realizes.bounded
  · exact realizes.word
  · exact realizes.finished
  · exact realizes.free
  · intro u owner
    have other : u ≠ t := by
      intro same
      subst u
      exact stranger owner
    rw [goto_other s t u next other]
    exact realizes.owned u owner

theorem realizes_rouse (s : State Thread) (visits : Visits Thread) (woken : Option Thread)
    (realizes : Realizes s visits) (sleeper : ∀ u ∈ woken, s.pc u = .asleep) :
    Realizes (s.rouse woken) visits := by
  cases woken with
  | none => exact realizes
  | some u =>
      have asleep := sleeper u rfl
      exact realizes_goto s visits u .swapping realizes (by rw [asleep]; rfl) rfl

theorem realizes_enter (s : State Thread) (done : Nat) (t : Thread) (value : Nat)
    (realizes : Realizes s ⟨none, done⟩) (positive : value ≠ 0) (bounded : value ≤ 2) :
    Realizes ({ s with m := value }.goto t .locked) ⟨some t, done⟩ := by
  constructor
  · intro u
    by_cases same : u = t
    · subst u
      simp [goto_here, Pc.holding]
    · have idle := realizes.holders u
      rw [goto_other _ t u .locked same]
      simp [Ne.symm same] at idle ⊢
      exact idle
  · exact bounded
  · simp [positive]
  · exact realizes.finished
  · simp
  · intro u owner
    injection owner with same
    subst u
    rw [goto_here]
    exact realizes.free rfl

theorem realizes_move (s : State Thread) (done : Nat) (t : Thread) (next : Pc) (value : Int)
    (realizes : Realizes s ⟨some t, done⟩) (after : next.holding = true)
    (progress : Progress value done next) :
    Realizes ({ s with shared := value }.goto t next) ⟨some t, done⟩ := by
  constructor
  · intro u
    by_cases same : u = t
    · subst u
      simp [goto_here, after]
    · rw [goto_other _ t u next same]
      exact realizes.holders u
  · exact realizes.bounded
  · exact realizes.word
  · exact realizes.finished
  · simp
  · intro u owner
    injection owner with same
    subst u
    rw [goto_here]
    exact progress

theorem realizes_leave (s : State Thread) (done : Nat) (t : Thread) (next : Pc)
    (realizes : Realizes s ⟨some t, done⟩) (here : s.pc t = .unlocking)
    (after : next.holding = false) :
    Realizes ({ s with m := 0, finished := s.finished + 1 }.goto t next) ⟨none, done + 1⟩ := by
  have progress : s.shared = done + 1 := by
    have owned := realizes.owned t rfl
    rwa [here] at owned
  have finished : s.finished = done := realizes.finished
  constructor
  · intro u
    by_cases same : u = t
    · subst u
      simp [goto_here, after]
    · rw [goto_other _ t u next same]
      have idle := realizes.holders u
      simp [Ne.symm same] at idle ⊢
      exact idle
  · exact Nat.zero_le 2
  · simp
  · simp [finished]
  · simp [progress]
  · simp

theorem realizes_acquire (s : State Thread) (visits : Visits Thread) (t : Thread) (value : Nat)
    (realizes : Realizes s visits) (unlocked : s.m = 0) (positive : value ≠ 0)
    (bounded : value ≤ 2) :
    ∃ visits', Visits.Step visits t visits' ∧
      Realizes ({ s with m := value }.goto t .locked) visits' := by
  obtain ⟨done, rfl⟩ := owner_of_unlocked s visits realizes unlocked
  exact ⟨⟨some t, done⟩, Visits.Step.enter done t,
    realizes_enter s done t value realizes positive bounded⟩

theorem realizes_step (sure : Prop) (s s' : State Thread) (visits : Visits Thread) (t : Thread)
    (realizes : Realizes s visits) (next : Step sure s t s') :
    ∃ visits', Visits.Step visits t visits' ∧ Realizes s' visits' := by
  cases next with
  | acquire here more unlocked =>
      have begun := realizes_left s visits (Function.update s.left t (s.left t - 1)) realizes
      exact realizes_acquire _ visits t 1 begun unlocked (by decide) (by decide)
  | contend here more taken =>
      have begun := realizes_left s visits (Function.update s.left t (s.left t - 1)) realizes
      exact ⟨visits, Visits.Step.idle visits t,
        realizes_goto _ visits t .swapping begun (by rw [here]; rfl) rfl⟩
  | exchange here =>
      -- over a 0 the exchange takes the mutex, over anything else it marks it
      by_cases unlocked : s.m = 0
      · rw [if_pos unlocked]
        exact realizes_acquire s visits t 2 realizes unlocked (by decide) (Nat.le_refl 2)
      · rw [if_neg unlocked]
        have marked := realizes_contended s visits realizes unlocked
        exact ⟨visits, Visits.Step.idle visits t,
          realizes_goto _ visits t .waiting marked (by rw [here]; rfl) rfl⟩
  | sleep here same =>
      exact ⟨visits, Visits.Step.idle visits t,
        realizes_goto s visits t .asleep realizes (by rw [here]; rfl) rfl⟩
  | decline here =>
      exact ⟨visits, Visits.Step.idle visits t,
        realizes_goto s visits t .swapping realizes (by rw [here]; rfl) rfl⟩
  | spurious here =>
      exact ⟨visits, Visits.Step.idle visits t,
        realizes_goto s visits t .swapping realizes (by rw [here]; rfl) rfl⟩
  | read here =>
      obtain ⟨done, rfl⟩ := owner_of_holding s visits t realizes (by rw [here]; rfl)
      have counted : s.shared = done := by
        have owned := realizes.owned t rfl
        rwa [here] at owned
      exact ⟨⟨some t, done⟩, Visits.Step.idle _ t,
        realizes_move s done t (.loaded s.shared) s.shared realizes rfl ⟨counted, counted⟩⟩
  | @write value here =>
      obtain ⟨done, rfl⟩ := owner_of_holding s visits t realizes (by rw [here]; rfl)
      have loaded : value = done ∧ s.shared = done := by
        have owned := realizes.owned t rfl
        rwa [here] at owned
      have added : value + 1 = (done : Int) + 1 := by rw [loaded.1]
      exact ⟨⟨some t, done⟩, Visits.Step.idle _ t,
        realizes_move s done t .unlocking (value + 1) realizes rfl added⟩
  -- the mutex is free from here on, whether the word was 1 or 2
  | release here =>
      obtain ⟨done, rfl⟩ := owner_of_holding s visits t realizes (by rw [here]; rfl)
      refine ⟨⟨none, done + 1⟩, Visits.Step.leave done t, realizes_leave s done t _ realizes here ?_⟩
      split <;> rfl
  | wake here sleeper picked =>
      refine ⟨visits, Visits.Step.idle visits t, realizes_rouse _ visits _ ?_ ?_⟩
      · exact realizes_goto s visits t .outside realizes (by rw [here]; rfl) rfl
      · intro u chosen
        have asleep := sleeper u chosen
        -- the thread in `futex_wake` is not the one it wakes
        have other : u ≠ t := by
          intro same
          subst u
          rw [here] at asleep
          contradiction
        rw [goto_other s t u .outside other]
        exact asleep

theorem mutex_simulation (sure : Prop) :
    Transition.Simulation (system sure) visiting (@Realizes Thread) := by
  constructor
  · intro s started
    exact ⟨⟨none, 0⟩, rfl, realizes_start s started⟩
  · intro s visits t s' realizes next
    exact realizes_step sure s s' visits t realizes next

theorem realizes_run (sure : Prop) (s : State Thread) (run : Run sure s) :
    ∃ visits, Realizes s visits := by
  obtain ⟨visits, _, realizes⟩ := Transition.simulation_reachable (mutex_simulation sure) s run
  exact ⟨visits, realizes⟩

/-- In every interleaving one thread at most holds the mutex, the word is 0
exactly when none does, and then no increment has been lost. -/
theorem mutual_exclusion (sure : Prop) (s : State Thread) (run : Run sure s) :
    (∀ t u, (s.pc t).holding = true → (s.pc u).holding = true → t = u) ∧
      (s.m ≠ 0 ↔ ∃ t, (s.pc t).holding = true) ∧ s.m ≤ 2 ∧
        ((¬ ∃ t, (s.pc t).holding = true) → s.shared = s.finished) := by
  obtain ⟨visits, realizes⟩ := realizes_run sure s run
  have held : (∃ t, (s.pc t).holding = true) ↔ visits.owner ≠ none := by
    simp only [realizes.holders, Option.ne_none_iff_exists']
  refine ⟨?_, ?_, realizes.bounded, ?_⟩
  · intro t u first second
    have owner := (realizes.holders t).mp first
    rw [(realizes.holders u).mp second] at owner
    exact (Option.some.inj owner).symm
  · rw [held]
    exact not_congr realizes.word
  · intro nobody
    rw [held, not_not] at nobody
    rw [realizes.finished]
    exact realizes.free nobody

end Steps

/-- After an iteration of one worker, which holds the mutex again while the other sleeps. -/
theorem workers_contend (sure : Prop) : ∃ s : State Bool, Run sure s ∧ s.pc true = .locked ∧
    s.pc false = .asleep ∧ s.m = 2 ∧ s.finished = 1 ∧ s.shared = 1 := by
  have run₀ : Run sure workers := Transition.Reachable.start ⟨rfl, rfl, rfl, fun _ => rfl⟩
  have run₁ := Transition.Reachable.step run₀ (Step.acquire (t := true) rfl (by decide) rfl)
  have run₂ := Transition.Reachable.step run₁ (Step.read (t := true) rfl)
  have run₃ := Transition.Reachable.step run₂ (Step.write (t := true) rfl)
  have run₄ := Transition.Reachable.step run₃ (Step.release (t := true) rfl)
  have run₅ := Transition.Reachable.step run₄ (Step.acquire (t := true) rfl (by decide) rfl)
  have run₆ := Transition.Reachable.step run₅ (Step.contend (t := false) rfl (by decide) (by decide))
  have run₇ := Transition.Reachable.step run₆ (Step.exchange (t := false) rfl)
  have run₈ := Transition.Reachable.step run₇ (Step.sleep (t := false) rfl rfl)
  exact ⟨_, run₈, rfl, rfl, rfl, rfl, rfl⟩

theorem mutual_exclusion_workers :
    ∃ s : State Bool, s.pc true = .locked ∧ s.finished = 1 ∧ s.shared = 1 ∧
      ((∀ t u, (s.pc t).holding = true → (s.pc u).holding = true → t = u) ∧
        (s.m ≠ 0 ↔ ∃ t, (s.pc t).holding = true) ∧ s.m ≤ 2 ∧
          ((¬ ∃ t, (s.pc t).holding = true) → s.shared = s.finished)) := by
  obtain ⟨s, run, holder, _, _, finished, shared⟩ := workers_contend True
  exact ⟨s, holder, finished, shared, mutual_exclusion True s run⟩

end LinuxMemory.Futex
