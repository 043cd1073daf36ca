import LinuxMemory.Scanf
import Mathlib.Data.Int.Init

/-!
Integers printed in base ten, as `%d` and `%ld` print them, and read again by `sscanf`.
-/

namespace LinuxMemory.Decimal

open Scanf

def decimal (v : Int) : List Char :=
  if v < 0 then '-' :: Nat.toDigits 10 v.natAbs else Nat.toDigits 10 v.natAbs

theorem digitValue_of_isDigit {c : Char} (digit : c.isDigit) :
    isDigit 10 c ∧ digitValue c = c.toNat - '0'.toNat := by
  have code : '0'.toNat ≤ c.toNat ∧ c.toNat ≤ '9'.toNat := by
    simpa [Char.isDigit, UInt32.le_iff_toNat_le] using digit
  have own : digitValue c = c.toNat - '0'.toNat := if_pos code
  refine ⟨decide_eq_true ?_, own⟩
  simp only [Char.reduceToNat] at code own
  omega

theorem toDigits_all (n : Nat) : ∀ c ∈ Nat.toDigits 10 n, isDigit 10 c := fun _ member =>
  (digitValue_of_isDigit (Nat.isDigit_of_mem_toDigits (by decide) (by decide) member)).1

theorem value_toDigits (n : Nat) : value 10 (Nat.toDigits 10 n) = n := by
  have same (digits : List Char) (all : ∀ c ∈ digits, c.isDigit) (start : Nat) :
      digits.foldl (fun n c => n * 10 + digitValue c) start = Nat.ofDigitChars 10 digits start := by
    induction digits generalizing start with
    | nil => rw [List.foldl_nil, Nat.ofDigitChars_nil]
    | cons c digits ih =>
        rw [List.forall_mem_cons] at all
        rw [List.foldl_cons, ih all.2, Nat.ofDigitChars_cons, (digitValue_of_isDigit all.1).2, Nat.mul_comm]
  rw [value, same _ fun c member => Nat.isDigit_of_mem_toDigits (by decide) (by decide) member]
  exact Nat.ofDigitChars_ten_toDigits

theorem decimal_length (v : Int) (k : Nat) (positive : 0 < k) (bound : v.natAbs < 10 ^ k) :
    (decimal v).length ≤ k + 1 := by
  have digits := (Nat.length_toDigits_le_iff (b := 10) (by decide) positive).mpr bound
  unfold decimal
  split
  · exact Nat.succ_le_succ digits
  · exact Nat.le_succ_of_le digits

theorem integer_minus {digits rest : List Char} (nonempty : digits ≠ [])
    (all : ∀ c ∈ digits, isDigit 10 c) (behind : Behind 10 rest) :
    integer 10 ('-' :: (digits ++ rest)) = some (true, value 10 digits, rest) := by
  have blanks : skipBlanks ('-' :: (digits ++ rest)) = '-' :: (digits ++ rest) := rfl
  have ends := digits_end all behind
  simp only [integer, blanks, signOf, if_true, if_neg (show ¬ (10 : Nat) = 16 by decide), ends.1, ends.2,
    if_neg nonempty]

/-- What is printed is read back, whatever stands behind it. -/
theorem decimal_read (v : Int) (format : List Directive) (rest : List Char) (behind : Behind 10 rest)
    (low : -2 ^ 63 ≤ v) (high : v < 2 ^ 63) :
    sscanf (.signed :: format) (decimal v ++ rest) = .signed v :: sscanf format rest := by
  have all := toDigits_all v.natAbs
  unfold decimal
  split
  · case isTrue negative =>
      have read := integer_minus Nat.toDigits_ne_nil all behind
      have cut : toSigned true v.natAbs = v := by
        rw [toSigned, if_pos rfl]
        omega
      rw [value_toDigits] at read
      rw [List.cons_append, sscanf_cons (by rw [Directive.convert, read, Option.map_some, cut])]
      rfl
  · case isFalse positive =>
      rw [sscanf_signed Nat.toDigits_ne_nil all behind (by rw [value_toDigits]; omega), value_toDigits,
        Int.natAbs_of_nonneg (by omega)]

end LinuxMemory.Decimal
