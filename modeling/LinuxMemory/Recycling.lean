import Mathlib.Data.List.Nodup

/-!
Slots that are handed out and given back. The history has the newest turn first.
A ledger that hands out the first available slot and puts one that comes back in
front reuses the slot that was given back last, and starts on the slots nobody
has had yet only when no slot has come back.
-/

namespace LinuxMemory.Recycling

inductive Turn (Slot : Type) where
  | taken (slot : Slot)
  | given (slot : Slot)
  deriving DecidableEq

variable {Slot : Type}

def Unused (history : List (Turn Slot)) (slot : Slot) : Prop := Turn.taken slot ∉ history

@[simp] theorem unused_taken (history : List (Turn Slot)) (slot other : Slot) :
    Unused (.taken slot :: history) other ↔ other ≠ slot ∧ Unused history other := by
  simp [Unused]

@[simp] theorem unused_given (history : List (Turn Slot)) (slot other : Slot) :
    Unused (.given slot :: history) other ↔ Unused history other := by
  simp [Unused]

variable [DecidableEq Slot]

/-- Looking back in time for the slot that was given back last and has not been
taken since; `since` collects the slots taken on the way. -/
def lastGiven : List (Turn Slot) → List Slot → Option Slot
  | [], _ => none
  | .taken slot :: older, since => lastGiven older (slot :: since)
  | .given slot :: older, since => if slot ∈ since then lastGiven older since else some slot

instance (history : List (Turn Slot)) : DecidablePred (Unused history) :=
  fun slot => inferInstanceAs (Decidable (Turn.taken slot ∉ history))

def idle : List (Turn Slot) → List Slot
  | [] => []
  | .taken slot :: older => (idle older).filter (· ≠ slot)
  | .given slot :: older => slot :: idle older

theorem lastGiven_eq (history : List (Turn Slot)) (since : List Slot) :
    lastGiven history since = (idle history).find? (· ∉ since) := by
  induction history generalizing since with
  | nil => rfl
  | cons turn older ih =>
      cases turn with
      | taken slot =>
          rw [lastGiven, ih, idle, List.find?_filter]
          congr 1
          funext other
          simp
      | given slot =>
          rw [lastGiven, idle, ih]
          by_cases again : slot ∈ since
          · simp [again]
          · simp [again]

theorem lastGiven_head (history : List (Turn Slot)) :
    lastGiven history [] = (idle history).head? := by
  rw [lastGiven_eq]
  cases idle history <;> simp

structure Ledger (Slot : Type) where
  live : List Slot
  available : List Slot
  history : List (Turn Slot)

def Ledger.take (ledger : Ledger Slot) (slot : Slot) : Ledger Slot :=
  ⟨slot :: ledger.live, ledger.available.tail, .taken slot :: ledger.history⟩

def Ledger.give (ledger : Ledger Slot) (slot : Slot) : Ledger Slot :=
  ⟨ledger.live.erase slot, slot :: ledger.available, .given slot :: ledger.history⟩

/-- Every slot of `all` is live or available, and the available ones stand in
the order of reuse. -/
structure Balanced (all : List Slot) (ledger : Ledger Slot) : Prop where
  shares : (ledger.live ++ ledger.available).Perm all
  order : ledger.available = idle ledger.history ++ all.filter (Unused ledger.history)

section Ledger
variable {all : List Slot} {ledger : Ledger Slot}

theorem balanced_start (all : List Slot) : Balanced all ⟨[], all, []⟩ := by
  constructor
  · exact List.Perm.refl all
  · simp [idle, Unused]

theorem balanced_nodup (balanced : Balanced all ledger) (distinct : all.Nodup) :
    (ledger.live ++ ledger.available).Nodup :=
  balanced.shares.nodup_iff.mpr distinct

theorem balanced_take (balanced : Balanced all ledger) (distinct : all.Nodup) (slot : Slot)
    (rest : List Slot) (first : ledger.available = slot :: rest) :
    Balanced all (ledger.take slot) := by
  have apart := (List.nodup_append.mp (balanced_nodup balanced distinct)).2.1
  obtain ⟨shares, order⟩ := balanced
  rw [first] at shares order apart
  have fresh : slot ∉ rest := (List.nodup_cons.mp apart).1
  constructor
  · simp only [Ledger.take, first, List.tail_cons]
    exact (List.perm_middle.symm).trans shares
  · -- taking a slot drops it from the idle ones and from the unused ones alike
    have unused : all.filter (Unused (.taken slot :: ledger.history)) =
        (all.filter (Unused ledger.history)).filter (· ≠ slot) := by
      rw [List.filter_filter]
      congr 1
      funext other
      simp
    have others : rest.filter (· ≠ slot) = rest := by
      rw [List.filter_eq_self]
      intro other member
      have different : other ≠ slot := fun same => fresh (same ▸ member)
      simp [different]
    simp only [Ledger.take, first, List.tail_cons, idle]
    rw [unused, ← List.filter_append, ← order, List.filter_cons_of_neg (by simp), others]

theorem balanced_give (balanced : Balanced all ledger) (slot : Slot)
    (held : slot ∈ ledger.live) : Balanced all (ledger.give slot) := by
  obtain ⟨shares, order⟩ := balanced
  constructor
  · have moved := (List.perm_cons_erase held).append_right ledger.available
    exact List.perm_middle.trans (moved.symm.trans shares)
  · simp [Ledger.give, idle, order]

/-- The next slot is the one given back last or, when none is idle, the first of
`all` that was never handed out. -/
theorem balanced_next (balanced : Balanced all ledger) (slot : Slot) (rest : List Slot)
    (first : ledger.available = slot :: rest) :
    lastGiven ledger.history [] = some slot ∨ lastGiven ledger.history [] = none ∧
      (all.filter (Unused ledger.history)).head? = some slot := by
  have order := balanced.order
  rw [first] at order
  rw [lastGiven_head]
  cases waiting : idle ledger.history with
  | nil =>
      rw [waiting, List.nil_append] at order
      exact Or.inr ⟨rfl, by rw [← order]; rfl⟩
  | cons recent others =>
      rw [waiting, List.cons_append] at order
      exact Or.inl (congrArg some (List.cons.inj order).1.symm)

end Ledger

theorem highest_unused (all : List Nat) (history : List (Turn Nat)) (slot : Nat)
    (falling : all.Pairwise (· > ·)) (first : (all.filter (Unused history)).head? = some slot) :
    slot ∈ all ∧ Unused history slot ∧ ∀ other ∈ all, Unused history other → other ≤ slot := by
  have kept := falling.filter (p := Unused history)
  cases shape : all.filter (Unused history) with
  | nil => simp [shape] at first
  | cons head others =>
      rw [shape] at first kept
      obtain rfl : head = slot := by simpa using first
      have member : head ∈ all.filter (Unused history) := by simp [shape]
      obtain ⟨inside, unused⟩ := List.mem_filter.mp member
      refine ⟨inside, by simpa using unused, fun other otherInside otherUnused => ?_⟩
      have listed : other ∈ head :: others := by
        rw [← shape]
        exact List.mem_filter.mpr ⟨otherInside, by simpa using otherUnused⟩
      rcases List.mem_cons.mp listed with rfl | later
      · exact Nat.le_refl _
      · exact Nat.le_of_lt ((List.pairwise_cons.mp kept).1 other later)

end LinuxMemory.Recycling
