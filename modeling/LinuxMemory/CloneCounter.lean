import LinuxMemory.Transition
import LinuxMemory.Word

/-!
The counter that two tasks share in `08_process_syscalls/05_clone_thread.c`. Each adds
1 to it `n` times, and `main` then waits in a loop until the counter has reached `2 * n`.
An `atomic_fetch_add` is one step; `int` arithmetic wraps as the hardware's does.
-/

namespace LinuxMemory.CloneCounter

open Transition Word

inductive Task where
  -- in its loop with this `i`
  | adding (i : Nat)
  | finished

inductive Main where
  | adding (i : Nat)
  | waiting
  -- past the waiting loop, before `printf`
  | past
  | finished

structure State where
  -- `shared_counter` as a 32-bit word
  counter : Nat
  child : Task
  main : Main
  -- what `child_fn` and `main` have printed as `counter`
  childPrinted : Option Nat
  mainPrinted : Option Nat

inductive Event where
  | childAdds | childPrints | mainAdds | mainWaits | spins | leaves | mainPrints

def increment (word : Nat) : Nat := (word + 1) % 2 ^ 32

inductive Step (n : Nat) : State → Event → State → Prop where
  | childAdds {s : State} {i : Nat} (here : s.child = .adding i) (more : i < n) :
      Step n s .childAdds { s with counter := increment s.counter, child := .adding (i + 1) }
  | childPrints {s : State} (here : s.child = .adding n) :
      Step n s .childPrints { s with child := .finished, childPrinted := some s.counter }
  | mainAdds {s : State} {i : Nat} (here : s.main = .adding i) (more : i < n) :
      Step n s .mainAdds { s with counter := increment s.counter, main := .adding (i + 1) }
  | mainWaits {s : State} (here : s.main = .adding n) : Step n s .mainWaits { s with main := .waiting }
  | spins {s : State} (here : s.main = .waiting) (below : toInt s.counter < toInt (2 * n)) :
      Step n s .spins s
  | leaves {s : State} (here : s.main = .waiting) (reached : ¬ toInt s.counter < toInt (2 * n)) :
      Step n s .leaves { s with main := .past }
  | mainPrints {s : State} (here : s.main = .past) :
      Step n s .mainPrints { s with main := .finished, mainPrinted := some s.counter }

def initial : State := ⟨0, .adding 0, .adding 0, none, none⟩

def system (n : Nat) : System State Event := ⟨(· = initial), Step n⟩

abbrev Run (n : Nat) : State → Prop := Reachable (system n)

def iterations : Nat := 1000

def idle : Event → Bool
  | .spins => true
  | _ => false

def Task.done (n : Nat) : Task → Nat
  | .adding i => i
  | .finished => n

def Main.done (n : Nat) : Main → Nat
  | .adding i => i
  | _ => n

/-- What every step keeps: no addition is lost. -/
structure Sound (n : Nat) (s : State) : Prop where
  total : s.counter = s.child.done n + s.main.done n
  child : s.child.done n ≤ n
  main : s.main.done n ≤ n
  past : s.main = .past ∨ s.main = .finished → s.child.done n = n
  childPrinted : ∀ v, s.childPrinted = some v → n ≤ v ∧ v ≤ 2 * n
  mainPrinted : ∀ v, s.mainPrinted = some v → v = 2 * n
  printed : s.main = .finished → s.mainPrinted.isSome = true

def State.work (n : Nat) (s : State) : Nat :=
  (match s.child with
    | .adding i => n - i + 1
    | .finished => 0) +
  match s.main with
    | .adding i => n - i + 3
    | .waiting => 2
    | .past => 1
    | .finished => 0

section Steps
variable {n : Nat}

theorem increment_exact (word : Nat) (room : word < 2 ^ 31) : increment word = word + 1 :=
  Nat.mod_eq_of_lt (by omega)

theorem sound_step (room : 2 * n < 2 ^ 31) (before after : State) (event : Event)
    (sound : Sound n before) (next : Step n before event after) : Sound n after := by
  obtain ⟨total, child, main, past, childPrinted, mainPrinted, printed⟩ := sound
  cases next with
  | @childAdds i here more =>
      rw [here] at total child past
      simp only [Task.done] at total child past
      refine ⟨?_, more, main, ?_, childPrinted, mainPrinted, printed⟩
      · show increment before.counter = i + 1 + before.main.done n
        rw [increment_exact _ (by omega)]
        omega
      · intro place
        have all := past place
        omega
  | childPrints here =>
      rw [here] at total child past
      simp only [Task.done] at total child past
      refine ⟨total, Nat.le_refl _, main, fun _ => rfl, ?_, mainPrinted, printed⟩
      rintro v same
      cases same
      omega
  | @mainAdds i here more =>
      rw [here] at total main
      simp only [Main.done] at total main
      refine ⟨?_, child, more, by simp, childPrinted, mainPrinted, by simp⟩
      show increment before.counter = before.child.done n + (i + 1)
      rw [increment_exact _ (by omega)]
      omega
  | mainWaits here =>
      rw [here] at total main
      exact ⟨total, child, main, by simp, childPrinted, mainPrinted, by simp⟩
  | spins here below => exact ⟨total, child, main, past, childPrinted, mainPrinted, printed⟩
  | leaves here reached =>
      rw [here] at total main
      simp only [Main.done] at total main
      rw [toInt_exact _ (by omega), toInt_exact _ room] at reached
      refine ⟨total, child, main, fun _ => ?_, childPrinted, mainPrinted, by simp⟩
      show before.child.done n = n
      omega
  | mainPrints here =>
      have all := past (.inl here)
      rw [here] at total main
      simp only [Main.done] at total main
      refine ⟨total, child, main, fun _ => all, childPrinted, ?_, fun _ => rfl⟩
      rintro v same
      cases same
      omega

theorem run_sound (room : 2 * n < 2 ^ 31) (s : State) (run : Run n s) : Sound n s := by
  apply reachable_invariant (system n) (Sound n) _ _ s run
  · rintro first rfl
    exact ⟨rfl, Nat.zero_le _, Nat.zero_le _, by simp [initial], by simp [initial], by simp [initial],
      by simp [initial]⟩
  · exact fun before event after => sound_step room before after event

theorem step_spends (before after : State) (event : Event) (next : Step n before event after)
    (active : idle event = false) : after.work n < before.work n := by
  unfold State.work
  cases next with
  | spins here below => simp [idle] at active
  | childAdds here more | mainAdds here more =>
      simp only [here]
      omega
  | childPrints here | mainWaits here | leaves here reached | mainPrints here =>
      simp only [here]
      omega

theorem moves (room : 2 * n < 2 ^ 31) (s : State) (sound : Sound n s) (unfinished : s.main ≠ .finished) :
    ∃ event after, idle event = false ∧ Step n s event after := by
  cases place : s.main with
  | finished => exact absurd place unfinished
  | past => exact ⟨_, _, rfl, .mainPrints place⟩
  | adding i =>
      have main := sound.main
      rw [place] at main
      by_cases more : i < n
      · exact ⟨_, _, rfl, .mainAdds place more⟩
      · have last : i = n := Nat.le_antisymm main (by omega)
        exact ⟨_, _, rfl, .mainWaits (last ▸ place)⟩
  | waiting =>
      have total := sound.total
      rw [place] at total
      simp only [Main.done] at total
      have here := sound.child
      cases there : s.child with
      | adding i =>
          rw [there] at here
          by_cases more : i < n
          · exact ⟨_, _, rfl, .childAdds there more⟩
          · have last : i = n := Nat.le_antisymm here (by omega)
            exact ⟨_, _, rfl, .childPrints (last ▸ there)⟩
      | finished =>
          -- all additions are done, so the loop ends at the next look
          rw [there] at total
          simp only [Task.done] at total
          refine ⟨_, _, rfl, .leaves place ?_⟩
          rw [toInt_exact _ (by omega), toInt_exact _ room]
          omega

theorem run_progress (room : 2 * n < 2 ^ 31) :
    Progress (system n) idle (fun s => s.main = .finished) (State.work n) where
  spends := fun before event after _ next active => step_spends before after event next active
  waits := by
    intro before event after next idles
    cases next with
    | spins => rfl
    | _ => simp [idle] at idles
  moves := fun s run unfinished => moves room s (run_sound room s run) unfinished

end Steps

/-- In every interleaving the counter is the number of additions done, and the waiting
loop of `main` is a join: it ends only after the last addition of the other task. -/
theorem counter_joined (n : Nat) (room : 2 * n < 2 ^ 31) (s : State) (run : Run n s) :
    s.counter = s.child.done n + s.main.done n ∧
    (s.main = .past ∨ s.main = .finished → s.counter = 2 * n) ∧
    (∀ v, s.childPrinted = some v → n ≤ v ∧ v ≤ 2 * n) ∧
    ((∀ event after, Step n s event after → idle event = true) → s.mainPrinted = some (2 * n)) := by
  have sound := run_sound room s run
  have total := sound.total
  refine ⟨total, ?_, sound.childPrinted, ?_⟩
  · intro place
    have all := sound.past place
    have own : s.main.done n = n := by
      rcases place with here | here <;> rw [here] <;> rfl
    omega
  · intro stuck
    have stopped := progress_stuck (run_progress room) s run stuck
    obtain ⟨v, printed⟩ := Option.isSome_iff_exists.mp (sound.printed stopped)
    rw [printed, sound.mainPrinted v printed]

theorem counter_joined_thousand : ∃ s, Run iterations s ∧ s.main = .finished ∧ s.counter = 2000 := by
  have room : 2 * iterations < 2 ^ 31 := by decide
  obtain ⟨_, s, path, stopped⟩ := progress_finishes (run_progress room) initial (.start rfl)
  have run := path_reachable _ _ _ _ (.start rfl) path
  exact ⟨s, run, stopped, (counter_joined iterations room s run).2.1 (.inr stopped)⟩

end LinuxMemory.CloneCounter
