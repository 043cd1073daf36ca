import Mathlib.Data.Nat.Bitwise

/-!
A byte-addressed memory and its little-endian accesses of any width. Each
access touches the bytes from its address on; the frame lemmas say that nothing
else is read or written.
-/

namespace LinuxMemory.ByteMemory

abbrev Memory := Nat → UInt8

def load (memory : Memory) : Nat → Nat → Nat
  | 0, _ => 0
  | width + 1, address => (memory address).toNat + 256 * load memory width (address + 1)

def store (memory : Memory) (width address value : Nat) : Memory :=
  fun byte => if address ≤ byte ∧ byte < address + width then
    UInt8.ofNat (value / 256 ^ (byte - address)) else memory byte

def poke (memory : Memory) (address : Nat) (value : UInt8) : Memory :=
  fun byte => if byte = address then value else memory byte

abbrev loadWord (memory : Memory) (address : Nat) : Nat := load memory 8 address

abbrev storeWord (memory : Memory) (address value : Nat) : Memory := store memory 8 address value

/-- A region that an anonymous `mmap` returned: page-aligned, not at 0, not empty
and below the top of the address space. -/
structure Region (start length : Nat) : Prop where
  aligned : start % 4096 = 0
  valid : 0 < start
  nonempty : 0 < length
  below : start + length < 2 ^ 64

def Apart (width other : Nat) (left right : Nat) : Prop :=
  left + width ≤ right ∨ right + other ≤ left

theorem load_lt (memory : Memory) (width address : Nat) :
    load memory width address < 256 ^ width := by
  induction width generalizing address with
  | zero => simp [load]
  | succ width ih =>
      have tail := ih (address + 1)
      have head := (memory address).toNat_lt
      rw [load, Nat.pow_succ]
      omega

theorem load_congr (before after : Memory) (width address : Nat)
    (same : ∀ byte, address ≤ byte → byte < address + width → after byte = before byte) :
    load after width address = load before width address := by
  induction width generalizing address with
  | zero => rfl
  | succ width ih =>
      have head := same address (Nat.le_refl _) (by omega)
      have tail := ih (address + 1) (fun byte low high => same byte (by omega) (by omega))
      simp only [load, head, tail]

theorem store_outside (memory : Memory) (width address value byte : Nat)
    (outside : byte < address ∨ address + width ≤ byte) :
    store memory width address value byte = memory byte := by
  have missed : ¬ (address ≤ byte ∧ byte < address + width) := by omega
  simp [store, missed]

theorem load_store_apart (memory : Memory) (width other address target value : Nat)
    (apart : Apart width other address target) :
    load (store memory other target value) width address = load memory width address := by
  apply load_congr
  intro byte low high
  apply store_outside
  unfold Apart at apart
  omega

theorem load_store_shifted (memory : Memory) (width base offset value : Nat) :
    load (store memory (offset + width) base value) width (base + offset) =
      value / 256 ^ offset % 256 ^ width := by
  induction width generalizing offset with
  | zero => simp [load, Nat.mod_one]
  | succ width ih =>
      have tail := ih (offset + 1)
      have shape : offset + 1 + width = offset + (width + 1) := by omega
      rw [shape] at tail
      have inside : base ≤ base + offset ∧ base + offset < base + (offset + (width + 1)) := by omega
      have digit : (UInt8.ofNat (value / 256 ^ offset)).toNat = value / 256 ^ offset % 256 := by
        simp
      rw [load, Nat.add_assoc base offset 1, tail]
      simp only [store, inside, and_self, ↓reduceIte, Nat.add_sub_cancel_left, digit]
      rw [Nat.pow_succ 256 offset, ← Nat.div_div_eq_div_mul, Nat.pow_succ', Nat.mod_mul]

theorem load_store_same (memory : Memory) (width address value : Nat) :
    load (store memory width address value) width address = value % 256 ^ width := by
  simpa using load_store_shifted memory width address 0 value

theorem loadWord_lt (memory : Memory) (address : Nat) : loadWord memory address < 2 ^ 64 :=
  load_lt memory 8 address

theorem load_poke (memory : Memory) (width address target : Nat) (value : UInt8)
    (outside : target < address ∨ address + width ≤ target) :
    load (poke memory target value) width address = load memory width address := by
  apply load_congr
  intro byte low high
  have different : byte ≠ target := by omega
  simp [poke, different]

theorem loadWord_storeWord (memory : Memory) (address target value : Nat)
    (aligned : address % 8 = 0) (targetAligned : target % 8 = 0) (bounded : value < 2 ^ 64) :
    loadWord (storeWord memory target value) address =
      if address = target then value else loadWord memory address := by
  by_cases same : address = target
  · subst same
    rw [if_pos rfl]
    exact (load_store_same memory 8 address value).trans (by simpa using Nat.mod_eq_of_lt bounded)
  · rw [if_neg same]
    apply load_store_apart
    unfold Apart
    omega

end LinuxMemory.ByteMemory
