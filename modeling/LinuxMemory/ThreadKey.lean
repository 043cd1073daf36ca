import LinuxMemory.Transition
import Mathlib.Logic.Function.Basic

/-!
The thread-specific buffers of `09_threads_memory/03_tls_pthread_key.c`. `main` creates
a key with a destructor and `n` threads; each fills a buffer, keeps it under the key and
reads it back, and the destructor frees it once the thread has returned. `main` joins
the threads and then deletes the key. `malloc` always finds a block.
-/

namespace LinuxMemory.ThreadKey

open Transition

/-- Where a thread is, with its `buf`. -/
inductive Phase where
  | unborn
  | started
  | allocated (p : Nat)
  | written (p : Nat)
  -- behind `pthread_setspecific`
  | kept (p : Nat)
  -- behind `printf`
  | printed (p : Nat)
  -- returned, in `dtor` with this argument
  | destroying (p : Nat)
  -- in `dtor`, before `free`
  | freeing (p : Nat)
  | ended

inductive Main where
  | creating (i : Nat)
  | joining (i : Nat)
  | finished

inductive Line where
  | got (thread : Nat) (text : String) (p : Nat)
  | dtor (thread p : Nat)
  deriving DecidableEq

def Line.thread : Line → Nat
  | .got thread _ _ => thread
  | .dtor thread _ => thread

structure State where
  threads : Nat → Phase
  slots : Nat → Nat
  -- the blocks that `malloc` has given out
  live : List Nat
  contents : Nat → String
  main : Main
  valid : Bool
  -- some `free` was of a block that is not given out
  corrupt : Bool
  output : List Line

inductive Event where
  | creates | created | joins | deletes
  | mallocs (i p : Nat)
  | fills (i : Nat) | keeps (i : Nat) | prints (i : Nat) | returns (i : Nat) | leaves (i : Nat)
  | destroys (i : Nat) | frees (i : Nat)

def hello (i : Nat) : String := "hello from " ++ toString i

def State.move (s : State) (i : Nat) (phase : Phase) : State :=
  { s with threads := Function.update s.threads i phase }

inductive Step (n : Nat) : State → Event → State → Prop where
  | creates {s : State} {i : Nat} (here : s.main = .creating i) (more : i < n) :
      Step n s .creates { s.move i .started with main := .creating (i + 1) }
  | created {s : State} (here : s.main = .creating n) :
      Step n s .created { s with main := .joining 0 }
  | mallocs {s : State} {i p : Nat} (here : s.threads i = .started) (block : p ≠ 0) (fresh : p ∉ s.live) :
      Step n s (.mallocs i p) { s.move i (.allocated p) with live := p :: s.live }
  | fills {s : State} {i p : Nat} (here : s.threads i = .allocated p) :
      Step n s (.fills i) { s.move i (.written p) with contents := Function.update s.contents p (hello i) }
  | keeps {s : State} {i p : Nat} (here : s.threads i = .written p) :
      Step n s (.keeps i) { s.move i (.kept p) with slots := Function.update s.slots i p }
  | prints {s : State} {i p : Nat} (here : s.threads i = .kept p) :
      Step n s (.prints i) { s.move i (.printed p) with
        output := s.output ++ [.got i (s.contents (s.slots i)) (s.slots i)] }
  | returns {s : State} {i p : Nat} (here : s.threads i = .printed p) (key : s.valid = true)
      (value : s.slots i ≠ 0) :
      Step n s (.returns i) { s.move i (.destroying (s.slots i)) with slots := Function.update s.slots i 0 }
  | leaves {s : State} {i p : Nat} (here : s.threads i = .printed p)
      (none : s.valid = false ∨ s.slots i = 0) : Step n s (.leaves i) (s.move i .ended)
  | destroys {s : State} {i p : Nat} (here : s.threads i = .destroying p) :
      Step n s (.destroys i) { s.move i (.freeing p) with output := s.output ++ [.dtor i p] }
  | frees {s : State} {i p : Nat} (here : s.threads i = .freeing p) :
      Step n s (.frees i) { s.move i .ended with
        live := s.live.erase p, corrupt := s.corrupt || decide (p ∉ s.live) }
  | joins {s : State} {i : Nat} (here : s.main = .joining i) (more : i < n)
      (returned : s.threads i = .ended) : Step n s .joins { s with main := .joining (i + 1) }
  | deletes {s : State} (here : s.main = .joining n) :
      Step n s .deletes { s with main := .finished, valid := false }

def Started (s : State) : Prop :=
  ∃ contents, s = ⟨fun _ => .unborn, fun _ => 0, [], contents, .creating 0, true, false, []⟩

def system (n : Nat) : System State Event := ⟨Started, Step n⟩

abbrev Run (n : Nat) : State → Prop := Reachable (system n)

def workers : Nat := 3

/-! What every step keeps. -/

def Phase.holds : Phase → Option Nat
  | .allocated p | .written p | .kept p | .printed p | .destroying p | .freeing p => some p
  | _ => none

def Phase.filled : Phase → Option Nat
  | .written p | .kept p | .printed p => some p
  | _ => none

def Phase.slot : Phase → Nat
  | .kept p | .printed p => p
  | _ => 0

def Printed (i : Nat) : Phase → List Line → Prop
  | .printed p, lines | .destroying p, lines => lines = [.got i (hello i) p]
  | .freeing p, lines => lines = [.got i (hello i) p, .dtor i p]
  | .ended, lines => ∃ p, lines = [.got i (hello i) p, .dtor i p]
  | _, lines => lines = []

def State.linesOf (s : State) (i : Nat) : List Line := s.output.filter fun line => line.thread = i

structure Behaves (s : State) : Prop where
  slot : ∀ i, s.slots i = (s.threads i).slot
  text : ∀ i p, (s.threads i).filled = some p → s.contents p = hello i
  lines : ∀ i, Printed i (s.threads i) (s.linesOf i)

/-- Each block that is given out has one thread that will free it. -/
structure Owned (s : State) : Prop where
  given : ∀ i p, (s.threads i).holds = some p → p ≠ 0 ∧ p ∈ s.live
  owner : ∀ p ∈ s.live, ∃ i, (s.threads i).holds = some p
  alone : ∀ i j p, (s.threads i).holds = some p → (s.threads j).holds = some p → i = j
  distinct : s.live.Nodup
  clean : s.corrupt = false

def Main.created (n : Nat) : Main → Nat
  | .creating i => i
  | _ => n

def Main.joined (n : Nat) : Main → Nat
  | .creating _ => 0
  | .joining i => i
  | .finished => n

structure Counted (n : Nat) (s : State) : Prop where
  created : s.main.created n ≤ n
  joined : s.main.joined n ≤ n
  born : ∀ i, s.threads i = .unborn ↔ s.main.created n ≤ i
  ended : ∀ i < s.main.joined n, s.threads i = .ended
  key : s.valid = false → s.main = .finished

structure Sound (n : Nat) (s : State) : Prop where
  behaves : Behaves s
  owned : Owned s
  counted : Counted n s

section Moves
variable {n i : Nat} {s t : State} {phase : Phase}

theorem behaves_move (behaves : Behaves s) (moved : t.threads = Function.update s.threads i phase)
    (slots : ∀ j, j ≠ i → t.slots j = s.slots j)
    (contents : ∀ j p, j ≠ i → (s.threads j).filled = some p → t.contents p = s.contents p)
    (lines : ∀ j, j ≠ i → t.linesOf j = s.linesOf j) (slot : t.slots i = phase.slot)
    (text : ∀ p, phase.filled = some p → t.contents p = hello i) (printed : Printed i phase (t.linesOf i)) :
    Behaves t := by
  constructor
  · intro j
    by_cases own : j = i
    · rw [own, moved, Function.update_self, slot]
    · rw [slots j own, moved, Function.update_of_ne own, behaves.slot]
  · intro j p full
    by_cases own : j = i
    · rw [own, moved, Function.update_self] at full
      rw [own, text p full]
    · rw [moved, Function.update_of_ne own] at full
      rw [contents j p own full, behaves.text j p full]
  · intro j
    by_cases own : j = i
    · rw [own, moved, Function.update_self]
      exact printed
    · rw [moved, Function.update_of_ne own, lines j own]
      exact behaves.lines j

theorem owned_congr (owned : Owned s) (same : ∀ j, (t.threads j).holds = (s.threads j).holds)
    (live : t.live = s.live) (corrupt : t.corrupt = s.corrupt) : Owned t := by
  constructor
  · intro j p holding
    rw [live]
    exact owned.given j p (same j ▸ holding)
  · intro p member
    rw [live] at member
    obtain ⟨j, holding⟩ := owned.owner p member
    exact ⟨j, (same j).trans holding⟩
  · intro j k p left right
    exact owned.alone j k p (same j ▸ left) (same k ▸ right)
  · rw [live]
    exact owned.distinct
  · rw [corrupt]
    exact owned.clean

theorem holds_move (moved : t.threads = Function.update s.threads i phase)
    (kept : phase.holds = (s.threads i).holds) (j : Nat) : (t.threads j).holds = (s.threads j).holds := by
  by_cases own : j = i
  · rw [own, moved, Function.update_self, kept]
  · rw [moved, Function.update_of_ne own]

theorem counted_move (counted : Counted n s) (moved : t.threads = Function.update s.threads i phase)
    (alive : s.threads i ≠ .unborn) (active : s.threads i ≠ .ended) (onward : phase ≠ .unborn)
    (main : t.main = s.main) (valid : t.valid = s.valid) : Counted n t := by
  constructor
  · rw [main]
    exact counted.created
  · rw [main]
    exact counted.joined
  · intro j
    rw [main]
    by_cases own : j = i
    · rw [own, moved, Function.update_self, ← counted.born i]
      exact ⟨fun none => absurd none onward, fun none => absurd none alive⟩
    · rw [moved, Function.update_of_ne own]
      exact counted.born j
  · intro j below
    rw [main] at below
    have done := counted.ended j below
    have other : j ≠ i := fun own => active (own ▸ done)
    rw [moved, Function.update_of_ne other, done]
  · rw [valid, main]
    exact counted.key

theorem linesOf_own (line : Line) (j : Nat) (output : t.output = s.output ++ [line]) (own : line.thread = j) :
    t.linesOf j = s.linesOf j ++ [line] := by
  simp [State.linesOf, output, own]

theorem linesOf_other (line : Line) (j : Nat) (output : t.output = s.output ++ [line])
    (other : line.thread ≠ j) : t.linesOf j = s.linesOf j := by
  simp [State.linesOf, output, other]

end Moves

section Steps
variable {n : Nat} {before after : State} {event : Event}

theorem held_block (owned : Owned before) (i p : Nat) (holding : (before.threads i).holds = some p)
    (j : Nat) (other : j ≠ i) (q : Nat) (full : (before.threads j).filled = some q) : q ≠ p := by
  rintro rfl
  have theirs : (before.threads j).holds = some q := by
    cases place : before.threads j with
    | written _ | kept _ | printed _ => rw [place] at full; exact full
    | _ => rw [place] at full; contradiction
  exact other (owned.alone j i q theirs holding)

theorem key_kept (sound : Sound n before) (i p : Nat) (here : before.threads i = .printed p) :
    before.valid = true ∧ before.slots i = p ∧ p ≠ 0 := by
  have slot := sound.behaves.slot i
  have given := sound.owned.given i p (by rw [here]; rfl)
  rw [here] at slot
  refine ⟨?_, slot, given.1⟩
  by_contra deleted
  have finished := sound.counted.key (Bool.eq_false_iff.mpr deleted)
  have born := sound.counted.born i
  have ended := sound.counted.ended i
  rw [finished, here] at born ended
  simp only [Main.created, Main.joined, reduceCtorEq, false_iff, Nat.not_le] at born ended
  exact ended born

theorem behaves_step (sound : Sound n before) (next : Step n before event after) : Behaves after := by
  have behaves := sound.behaves
  have held := held_block sound.owned
  cases next with
  | created here | joins here more returned | deletes here =>
      exact ⟨behaves.slot, behaves.text, behaves.lines⟩
  | @creates i here more =>
      have none := (sound.counted.born i).mpr (by rw [here]; exact Nat.le_refl i)
      have slot := behaves.slot i
      have lines := behaves.lines i
      rw [none] at slot lines
      exact behaves_move behaves rfl (fun _ _ => rfl) (fun _ _ _ _ => rfl) (fun _ _ => rfl) slot
        (by simp [Phase.filled]) lines
  | @mallocs i p here block fresh =>
      have slot := behaves.slot i
      have lines := behaves.lines i
      rw [here] at slot lines
      exact behaves_move behaves rfl (fun _ _ => rfl) (fun _ _ _ _ => rfl) (fun _ _ => rfl) slot
        (by simp [Phase.filled]) lines
  | @fills i p here =>
      have slot := behaves.slot i
      have lines := behaves.lines i
      rw [here] at slot lines
      refine behaves_move behaves rfl (fun _ _ => rfl) ?_ (fun _ _ => rfl) slot ?_ lines
      · intro j q other full
        exact Function.update_of_ne (held i p (by rw [here]; rfl) j other q full) _ _
      · rintro q ⟨⟩
        exact Function.update_self p _ before.contents
  | @keeps i p here =>
      have text := behaves.text i
      have lines := behaves.lines i
      rw [here] at text lines
      exact behaves_move behaves rfl (fun _ other => Function.update_of_ne other _ _) (fun _ _ _ _ => rfl)
        (fun _ _ => rfl) (Function.update_self i _ before.slots) text lines
  | @prints i p here =>
      have slot := behaves.slot i
      have text := behaves.text i p (by rw [here]; rfl)
      have lines := behaves.lines i
      rw [here] at slot lines
      have shown : before.slots i = p := slot
      have before' : before.linesOf i = [] := lines
      refine behaves_move behaves rfl (fun _ _ => rfl) (fun _ _ _ _ => rfl) ?_ slot ?_ ?_
      · intro j other
        exact linesOf_other _ j rfl (Ne.symm other)
      · rintro q ⟨⟩
        exact text
      · rw [linesOf_own (s := before) _ i rfl rfl, before', shown, text]
        rfl
  | @returns i p here key value =>
      obtain ⟨_, slot, _⟩ := key_kept sound i p here
      have lines := behaves.lines i
      rw [here] at lines
      refine behaves_move behaves rfl (fun _ other => Function.update_of_ne other _ _) (fun _ _ _ _ => rfl)
        (fun _ _ => rfl) (Function.update_self i _ before.slots) (by simp [Phase.filled]) ?_
      rw [slot]
      exact lines
  | @leaves i p here none =>
      obtain ⟨key, slot, block⟩ := key_kept sound i p here
      rcases none with deleted | empty
      · rw [key] at deleted
        contradiction
      · exact absurd (slot.symm.trans empty) block
  | @destroys i p here =>
      have slot := behaves.slot i
      have lines := behaves.lines i
      rw [here] at slot lines
      have before' : before.linesOf i = [.got i (hello i) p] := lines
      refine behaves_move behaves rfl (fun _ _ => rfl) (fun _ _ _ _ => rfl) ?_ slot
        (by simp [Phase.filled]) ?_
      · intro j other
        exact linesOf_other _ j rfl (Ne.symm other)
      · rw [linesOf_own (s := before) _ i rfl rfl, before']
        rfl
  | @frees i p here =>
      have slot := behaves.slot i
      have lines := behaves.lines i
      rw [here] at slot lines
      exact behaves_move behaves rfl (fun _ _ => rfl) (fun _ _ _ _ => rfl) (fun _ _ => rfl) slot
        (by simp [Phase.filled]) ⟨p, lines⟩

theorem owned_step (sound : Sound n before) (next : Step n before event after) : Owned after := by
  have owned := sound.owned
  cases next with
  | created here | joins here more returned | deletes here =>
      exact owned_congr owned (fun _ => rfl) rfl rfl
  | @creates i here more =>
      have none := (sound.counted.born i).mpr (by rw [here]; exact Nat.le_refl i)
      exact owned_congr owned (holds_move rfl (by rw [none]; rfl)) rfl rfl
  | @fills i p here | @keeps i p here | @prints i p here | @destroys i p here =>
      exact owned_congr owned (holds_move rfl (by rw [here]; rfl)) rfl rfl
  | @returns i p here key value =>
      obtain ⟨_, slot, _⟩ := key_kept sound i p here
      exact owned_congr owned (holds_move rfl (by rw [here, slot]; rfl)) rfl rfl
  | @leaves i p here none =>
      obtain ⟨key, slot, block⟩ := key_kept sound i p here
      rcases none with deleted | empty
      · rw [key] at deleted
        contradiction
      · exact absurd (slot.symm.trans empty) block
  | @mallocs i p here block fresh =>
      have moved (j : Nat) (other : j ≠ i) : (before.move i (.allocated p)).threads j = before.threads j :=
        Function.update_of_ne other _ _
      have own : (before.move i (.allocated p)).threads i = .allocated p := Function.update_self ..
      have older (j q : Nat) (other : j ≠ i)
          (holding : ((before.move i (.allocated p)).threads j).holds = some q) :
          q ≠ p ∧ (before.threads j).holds = some q := by
        rw [moved j other] at holding
        exact ⟨fun same => fresh (same ▸ (owned.given j q holding).2), holding⟩
      constructor
      · intro j q holding
        by_cases mine : j = i
        · rw [mine, own] at holding
          cases holding
          exact ⟨block, List.mem_cons_self⟩
        · have given := owned.given j q (older j q mine holding).2
          exact ⟨given.1, List.mem_cons_of_mem p given.2⟩
      · intro q member
        rcases List.mem_cons.mp member with rfl | member
        · exact ⟨i, by rw [own]; rfl⟩
        · obtain ⟨j, holding⟩ := owned.owner q member
          have other : j ≠ i := by
            rintro rfl
            rw [here] at holding
            contradiction
          exact ⟨j, by rw [moved j other]; exact holding⟩
      · intro j k q left right
        by_cases mine : j = i <;> by_cases mine' : k = i
        · rw [mine, mine']
        · rw [mine, own] at left
          cases left
          exact absurd rfl (older k p mine' right).1
        · rw [mine', own] at right
          cases right
          exact absurd rfl (older j p mine left).1
        · exact owned.alone j k q (older j q mine left).2 (older k q mine' right).2
      · exact List.nodup_cons.mpr ⟨fresh, owned.distinct⟩
      · exact owned.clean
  | @frees i p here =>
      have mine : (before.threads i).holds = some p := by rw [here]; rfl
      have inside := (owned.given i p mine).2
      have older (j q : Nat) (holding : ((before.move i .ended).threads j).holds = some q) :
          j ≠ i ∧ (before.threads j).holds = some q := by
        have other : j ≠ i := by
          rintro rfl
          have own : (before.move j .ended).threads j = .ended := Function.update_self ..
          rw [own] at holding
          contradiction
        have moved : (before.move i .ended).threads j = before.threads j := Function.update_of_ne other _ _
        exact ⟨other, moved ▸ holding⟩
      constructor
      · intro j q holding
        obtain ⟨other, held⟩ := older j q holding
        have given := owned.given j q held
        have apart : q ≠ p := by
          rintro rfl
          exact other (owned.alone j i q held mine)
        exact ⟨given.1, (List.mem_erase_of_ne apart).mpr given.2⟩
      · intro q member
        obtain ⟨apart, member⟩ := (owned.distinct.mem_erase_iff).mp member
        obtain ⟨j, holding⟩ := owned.owner q member
        have other : j ≠ i := by
          rintro rfl
          rw [mine, Option.some.injEq] at holding
          exact apart holding.symm
        have moved : (before.move i .ended).threads j = before.threads j := Function.update_of_ne other _ _
        exact ⟨j, by dsimp only; rw [moved]; exact holding⟩
      · intro j k q left right
        exact owned.alone j k q (older j q left).2 (older k q right).2
      · exact owned.distinct.erase p
      · simp [owned.clean, inside]

theorem counted_step (sound : Sound n before) (next : Step n before event after) : Counted n after := by
  have counted := sound.counted
  cases next with
  | @creates i here more =>
      have born := counted.born
      rw [here] at born
      refine ⟨more, Nat.zero_le n, ?_, fun j below => absurd below (Nat.not_lt_zero j), ?_⟩
      · intro j
        by_cases own : j = i
        · have moved : (before.move i .started).threads j = .started := own ▸ Function.update_self ..
          simp only [moved, Main.created, reduceCtorEq, false_iff]
          omega
        · have moved : (before.move i .started).threads j = before.threads j := Function.update_of_ne own _ _
          simp only [moved, born j, Main.created]
          omega
      · intro deleted
        have finished := counted.key deleted
        rw [here] at finished
        contradiction
  | created here =>
      have born := counted.born
      rw [here] at born
      refine ⟨Nat.le_refl n, Nat.zero_le n, born, fun j below => absurd below (Nat.not_lt_zero j), ?_⟩
      intro deleted
      have finished := counted.key deleted
      rw [here] at finished
      contradiction
  | @joins i here more returned =>
      have born := counted.born
      have ended := counted.ended
      rw [here] at born ended
      refine ⟨Nat.le_refl n, more, born, ?_, ?_⟩
      · intro j below
        rcases Nat.lt_succ_iff_lt_or_eq.mp below with earlier | rfl
        · exact ended j earlier
        · exact returned
      · intro deleted
        have finished := counted.key deleted
        rw [here] at finished
        contradiction
  | deletes here =>
      have born := counted.born
      have ended := counted.ended
      rw [here] at born ended
      exact ⟨Nat.le_refl n, Nat.le_refl n, born, ended, fun _ => rfl⟩
  | @leaves i p here none =>
      exact counted_move counted rfl (by simp [here]) (by simp [here]) (by simp) rfl rfl
  | @mallocs i p here | @fills i p here | @keeps i p here | @prints i p here | @returns i p here
  | @destroys i p here | @frees i p here =>
      exact counted_move counted rfl (by simp [here]) (by simp [here]) (by simp) rfl rfl

theorem run_sound (s : State) (run : Run n s) : Sound n s := by
  apply reachable_invariant (system n) (Sound n) _ _ s run
  · rintro first ⟨contents, rfl⟩
    refine ⟨⟨fun _ => rfl, by simp [Phase.filled], fun _ => rfl⟩,
      ⟨by simp [Phase.holds], by simp, by simp [Phase.holds], List.nodup_nil, rfl⟩,
      ⟨Nat.zero_le n, Nat.zero_le n, ?_, fun j below => absurd below (Nat.not_lt_zero j), by simp⟩⟩
    intro i
    simp [Main.created]
  · exact fun before event after sound next =>
      ⟨behaves_step sound next, owned_step sound next, counted_step sound next⟩

end Steps

/-! Every run ends. -/

def Phase.work : Phase → Nat
  | .unborn => 8
  | .started => 7
  | .allocated _ => 6
  | .written _ => 5
  | .kept _ => 4
  | .printed _ => 3
  | .destroying _ => 2
  | .freeing _ => 1
  | .ended => 0

def Main.work (n : Nat) : Main → Nat
  | .creating i => (n - i) + n + 2
  | .joining i => (n - i) + 1
  | .finished => 0

def total : Nat → (Nat → Phase) → Nat
  | 0, _ => 0
  | n + 1, threads => total n threads + (threads n).work

def State.work (n : Nat) (s : State) : Nat := total n s.threads + s.main.work n

theorem total_move (n i : Nat) (threads : Nat → Phase) (phase : Phase) (below : i < n) :
    total n (Function.update threads i phase) + (threads i).work = total n threads + phase.work := by
  have skipped (m : Nat) (least : m ≤ i) : total m (Function.update threads i phase) = total m threads := by
    induction m with
    | zero => rfl
    | succ m ih =>
        have different : m ≠ i := Nat.ne_of_lt least
        rw [total, total, ih (Nat.le_of_lt least), Function.update_of_ne different]
  induction n with
  | zero => omega
  | succ n ih =>
      rw [total, total]
      rcases Nat.lt_succ_iff_lt_or_eq.mp below with earlier | rfl
      · have rest := ih earlier
        rw [Function.update_of_ne (by omega)]
        omega
      · rw [skipped i (Nat.le_refl i), Function.update_self]
        omega

theorem total_less (n i : Nat) (threads : Nat → Phase) (phase : Phase) (below : i < n)
    (less : phase.work < (threads i).work) : total n (Function.update threads i phase) < total n threads := by
  have moved := total_move n i threads phase below
  omega

section Progress
variable {n : Nat} {before after : State} {event : Event}

theorem thread_below (counted : Counted n before) (i : Nat) (alive : before.threads i ≠ .unborn) : i < n := by
  by_contra beyond
  exact alive ((counted.born i).mpr (Nat.le_trans counted.created (Nat.le_of_not_lt beyond)))

theorem step_spends (sound : Sound n before) (next : Step n before event after) :
    after.work n < before.work n := by
  have below (i : Nat) := thread_below sound.counted i
  unfold State.work
  cases next with
  | @creates i here more =>
      have none := (sound.counted.born i).mpr (by rw [here]; exact Nat.le_refl i)
      have spent := total_move n i before.threads .started more
      rw [none] at spent
      simp only [State.move, here, Main.work, Phase.work] at spent ⊢
      omega
  | created here | joins here more returned | deletes here =>
      simp only [here, Main.work]
      omega
  | @mallocs i p here | @fills i p here | @keeps i p here | @prints i p here | @returns i p here
  | @leaves i p here | @destroys i p here | @frees i p here =>
      exact Nat.add_lt_add_right
        (total_less n i _ _ (below i (by simp [here])) (by simp [here, Phase.work])) _

theorem exists_fresh (live : List Nat) : ∃ p, p ≠ 0 ∧ p ∉ live := by
  refine ⟨live.max?.getD 0 + 1, Nat.succ_ne_zero _, fun member => ?_⟩
  have below : live.max?.getD 0 + 1 ≤ live.max?.getD 0 := List.le_max?_getD_of_mem member
  omega

theorem thread_moves (sound : Sound n before) (i : Nat) (alive : before.threads i ≠ .unborn)
    (active : before.threads i ≠ .ended) : ∃ event after, Step n before event after := by
  cases here : before.threads i with
  | unborn => exact absurd here alive
  | ended => exact absurd here active
  | started =>
      obtain ⟨p, block, fresh⟩ := exists_fresh before.live
      exact ⟨_, _, .mallocs here block fresh⟩
  | allocated p => exact ⟨_, _, .fills here⟩
  | written p => exact ⟨_, _, .keeps here⟩
  | kept p => exact ⟨_, _, .prints here⟩
  | printed p =>
      obtain ⟨key, slot, block⟩ := key_kept sound i p here
      exact ⟨_, _, .returns here key (by rw [slot]; exact block)⟩
  | destroying p => exact ⟨_, _, .destroys here⟩
  | freeing p => exact ⟨_, _, .frees here⟩

theorem moves (sound : Sound n before) (unfinished : before.main ≠ .finished) :
    ∃ event after, Step n before event after := by
  have counted := sound.counted
  cases place : before.main with
  | finished => exact absurd place unfinished
  | creating i =>
      have created := counted.created
      rw [place] at created
      by_cases more : i < n
      · exact ⟨_, _, .creates place more⟩
      · have last : i = n := Nat.le_antisymm created (Nat.le_of_not_lt more)
        exact ⟨_, _, .created (last ▸ place)⟩
  | joining i =>
      have joined := counted.joined
      have born := counted.born i
      rw [place] at joined born
      by_cases more : i < n
      · by_cases returned : before.threads i = .ended
        · exact ⟨_, _, .joins place more returned⟩
        · exact thread_moves sound i (fun none => Nat.not_le.mpr more (born.mp none)) returned
      · have last : i = n := Nat.le_antisymm joined (Nat.le_of_not_lt more)
        exact ⟨_, _, .deletes (last ▸ place)⟩

theorem run_progress (n : Nat) :
    Progress (system n) (fun _ => false) (fun s => s.main = .finished) (State.work n) := by
  apply progress_busy
  · exact fun before _ _ run next => step_spends (run_sound before run) next
  · exact fun s run unfinished => moves (run_sound s run) unfinished

end Progress

theorem printed_got {i p : Nat} {phase : Phase} {text : String} {lines : List Line}
    (printed : Printed i phase lines) (member : .got i text p ∈ lines) : text = hello i := by
  cases phase with
  | unborn | started | allocated _ | written _ | kept _ =>
      rw [show lines = [] from printed] at member
      exact absurd member List.not_mem_nil
  | printed q | destroying q =>
      rw [show lines = [.got i (hello i) q] from printed] at member
      simp only [List.mem_singleton, Line.got.injEq, true_and] at member
      exact member.1
  | freeing q =>
      rw [show lines = [.got i (hello i) q, .dtor i q] from printed] at member
      simp only [List.mem_cons, Line.got.injEq, reduceCtorEq, true_and, List.not_mem_nil, or_false] at member
      exact member.1
  | ended =>
      obtain ⟨q, rfl⟩ := printed
      simp only [List.mem_cons, Line.got.injEq, reduceCtorEq, true_and, List.not_mem_nil, or_false] at member
      exact member.1

/-- In every interleaving each thread reads its own text back, no block is freed that is
not given out, and once `main` has deleted the key every thread has printed and freed
its block and none is left. The run ends only there. -/
theorem keys_destroyed (n : Nat) (s : State) (run : Run n s) :
    s.corrupt = false ∧ (∀ i text p, .got i text p ∈ s.output → text = hello i) ∧
    (s.main = .finished → s.live = [] ∧
      ∀ i < n, ∃ p, s.linesOf i = [.got i (hello i) p, .dtor i p]) ∧
    ((∀ event after, ¬ Step n s event after) → s.main = .finished) := by
  have sound := run_sound s run
  refine ⟨sound.owned.clean, ?_, ?_, ?_⟩
  · intro i text p printed
    have own : Line.got i text p ∈ s.linesOf i := List.mem_filter.mpr ⟨printed, decide_eq_true rfl⟩
    exact printed_got (sound.behaves.lines i) own
  · intro finished
    have ended := sound.counted.ended
    have born := sound.counted.born
    rw [finished] at ended born
    constructor
    · apply List.eq_nil_iff_forall_not_mem.mpr
      intro p member
      obtain ⟨i, holding⟩ := sound.owned.owner p member
      by_cases below : i < n
      · rw [ended i below] at holding
        contradiction
      · rw [(born i).mpr (Nat.le_of_not_lt below)] at holding
        contradiction
    · intro i below
      have lines := sound.behaves.lines i
      rw [ended i below] at lines
      exact lines
  · exact busy_stuck (run_progress n) s run

theorem keys_destroyed_workers : ∃ s, Run workers s ∧ s.main = .finished ∧ s.live = [] := by
  have initial : Run workers ⟨fun _ => .unborn, fun _ => 0, [], fun _ => "", .creating 0, true, false, []⟩ :=
    .start ⟨_, rfl⟩
  obtain ⟨_, s, path, finished⟩ := progress_finishes (run_progress workers) _ initial
  have run := path_reachable _ _ _ _ initial path
  exact ⟨s, run, finished, ((keys_destroyed workers s run).2.2.1 finished).1⟩

end LinuxMemory.ThreadKey
