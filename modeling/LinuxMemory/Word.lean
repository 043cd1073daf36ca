import Mathlib.Data.Nat.Bitwise

/-!
Unsigned 64-bit arithmetic, with the natural number below `2 ^ 64` as the value
of a word. Every operation wraps as `size_t` and `uintptr_t` do. The lemmas say
when it does not wrap, so that a proof can leave the words for `Nat` at once.
-/

namespace LinuxMemory.Word

def add (left right : Nat) : Nat := (left + right) % 2 ^ 64

def sub (left right : Nat) : Nat := (2 ^ 64 + left - right) % 2 ^ 64

def mul (left right : Nat) : Nat := left * right % 2 ^ 64

def not (word : Nat) : Nat := 2 ^ 64 - 1 - word

/-- Rounding up to a multiple of `unit`, a power of two: add `unit - 1`, then
clear the low bits. -/
def roundUp (unit word : Nat) : Nat := add word (unit - 1) &&& not (unit - 1)

/-- The value of an `int` from its 32 bits. -/
def toInt (word : Nat) : Int := if word < 2 ^ 31 then word else word - 2 ^ 32

theorem toInt_exact (word : Nat) (room : word < 2 ^ 31) : toInt word = word := if_pos room

theorem add_lt (left right : Nat) : add left right < 2 ^ 64 :=
  Nat.mod_lt _ (by decide)

theorem add_exact (left right : Nat) (room : left + right < 2 ^ 64) :
    add left right = left + right :=
  Nat.mod_eq_of_lt room

theorem sub_exact (left right : Nat) (below : right ≤ left) (bounded : left < 2 ^ 64) :
    sub left right = left - right := by
  unfold sub
  omega

theorem mul_exact (left right : Nat) (room : left * right < 2 ^ 64) :
    mul left right = left * right :=
  Nat.mod_eq_of_lt room

theorem not_low_testBit (shift index : Nat) (inside : shift ≤ 64) :
    (not (2 ^ shift - 1)).testBit index = decide (shift ≤ index ∧ index < 64) := by
  have positive : 0 < 2 ^ shift := Nat.two_pow_pos shift
  have bounded : 2 ^ shift ≤ 2 ^ 64 := Nat.pow_le_pow_right (by decide) inside
  have shape : not (2 ^ shift - 1) = 2 ^ 64 - (2 ^ shift - 1 + 1) := by unfold not; omega
  rw [shape, Nat.testBit_two_pow_sub_succ (by omega), Nat.testBit_two_pow_sub_one]
  by_cases low : index < shift
  · simp [low, Nat.not_le.mpr low]
  · simp [low, Nat.le_of_not_lt low]

/-- Clearing the low `shift` bits of a word rounds it down to a multiple. -/
theorem and_not_low (shift word : Nat) (inside : shift ≤ 64) (bounded : word < 2 ^ 64) :
    word &&& not (2 ^ shift - 1) = word / 2 ^ shift * 2 ^ shift := by
  apply Nat.eq_of_testBit_eq
  intro index
  rw [Nat.testBit_and, not_low_testBit shift index inside, Nat.testBit_mul_two_pow,
    Nat.testBit_div_two_pow]
  by_cases high : shift ≤ index
  · rw [Nat.sub_add_cancel high]
    by_cases top : index < 64
    · simp [high, top]
    · have clear : word.testBit index = false :=
        Nat.testBit_lt_two_pow (Nat.lt_of_lt_of_le bounded
          (Nat.pow_le_pow_right (by decide) (Nat.le_of_not_lt top)))
      simp [clear]
  · simp [high]

theorem roundUp_eq (shift word : Nat) (inside : shift ≤ 64) :
    roundUp (2 ^ shift) word = add word (2 ^ shift - 1) / 2 ^ shift * 2 ^ shift :=
  and_not_low shift _ inside (add_lt _ _)

theorem or_one (word : Nat) (even : word % 2 = 0) : word ||| 1 = word + 1 := by
  have shape : word = 2 ^ 1 * (word / 2) := by omega
  rw [shape, ← Nat.two_pow_add_eq_or_of_lt (by decide : 1 < 2 ^ 1)]

end LinuxMemory.Word
