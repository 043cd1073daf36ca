import Mathlib.Algebra.Order.Ring.Int
import Mathlib.Data.List.Induction

/-!
The conversions of `sscanf` on a text without null bytes, one character for each
byte. A number that does not fit its type, which the C standard leaves open, is
cut to the nearest value as `strtoul` and `strtol` do.
-/

namespace LinuxMemory.Scanf

def isSpace (c : Char) : Bool := c.toNat = 32 || (9 ≤ c.toNat && c.toNat ≤ 13)

def digitValue (c : Char) : Nat :=
  if '0'.toNat ≤ c.toNat ∧ c.toNat ≤ '9'.toNat then c.toNat - '0'.toNat
  else if 'a'.toNat ≤ c.toNat ∧ c.toNat ≤ 'f'.toNat then c.toNat - 'a'.toNat + 10
  else if 'A'.toNat ≤ c.toNat ∧ c.toNat ≤ 'F'.toNat then c.toNat - 'A'.toNat + 10
  else 36

def isDigit (base : Nat) (c : Char) : Bool := digitValue c < base

def value (base : Nat) (digits : List Char) : Nat :=
  digits.foldl (fun n c => n * base + digitValue c) 0

inductive Directive where
  | blanks                -- white space in the format
  | literal (c : Char)    -- any other character of the format
  | hex                   -- `%lx`
  | unsigned              -- `%lu`
  | signed                -- `%ld`
  | word (width : Nat)    -- `%Ns` with the width `N`
  | line (width : Nat)    -- `%N[^\n]` with the width `N`

inductive Field where
  | unsigned (n : Nat)
  | signed (n : Int)
  | text (s : List Char)
deriving DecidableEq

def skipBlanks (s : List Char) : List Char := s.dropWhile isSpace

def signOf : List Char → Bool × List Char
  | [] => (false, [])
  | c :: s => if c = '-' then (true, s) else if c = '+' then (false, s) else (false, c :: s)

/-- The `0x` that may stand before hexadecimal digits. -/
def skipBase : List Char → List Char
  | '0' :: c :: s => if c = 'x' ∨ c = 'X' then s else '0' :: c :: s
  | s => s

def integer (base : Nat) (s : List Char) : Option (Bool × Nat × List Char) :=
  let (negative, s) := signOf (skipBlanks s)
  let s := if base = 16 then skipBase s else s
  let digits := s.takeWhile (isDigit base)
  if digits = [] then none else some (negative, value base digits, s.dropWhile (isDigit base))

def toUnsigned (negative : Bool) (n : Nat) : Nat :=
  if 2 ^ 64 ≤ n then 2 ^ 64 - 1 else if negative then (2 ^ 64 - n) % 2 ^ 64 else n

def toSigned (negative : Bool) (n : Nat) : Int :=
  if negative then max (-(2 ^ 63)) (-n) else min n (2 ^ 63 - 1)

/-- What a directive assigns, if anything, and what it leaves; `none` is a failure. -/
def Directive.convert : Directive → List Char → Option (Option Field × List Char)
  | .blanks, s => some (none, skipBlanks s)
  | .literal _, [] => none
  | .literal c, d :: s => if d = c then some (none, s) else none
  | .hex, s => (integer 16 s).map fun r => (some (.unsigned (toUnsigned r.1 r.2.1)), r.2.2)
  | .unsigned, s => (integer 10 s).map fun r => (some (.unsigned (toUnsigned r.1 r.2.1)), r.2.2)
  | .signed, s => (integer 10 s).map fun r => (some (.signed (toSigned r.1 r.2.1)), r.2.2)
  | .word width, s =>
      let word := ((skipBlanks s).take width).takeWhile fun c => !isSpace c
      if word = [] then none else some (some (.text word), (skipBlanks s).drop word.length)
  | .line width, s =>
      let word := (s.take width).takeWhile fun c => c != '\n'
      if word = [] then none else some (some (.text word), s.drop word.length)

/-- The values that `sscanf` assigns before its first failure. Where there are
any, it returns their number. -/
def sscanf : List Directive → List Char → List Field
  | [], _ => []
  | d :: format, s =>
      match d.convert s with
      | none => []
      | some (field, rest) => field.toList ++ sscanf format rest

/-! White space. -/

section Blanks
variable {s : List Char}

theorem skipBlanks_word (word : ∀ c, s.head? = some c → isSpace c = false) : skipBlanks s = s := by
  cases s with
  | nil => rfl
  | cons c s => simp [skipBlanks, word c rfl]

theorem word_head {word : List Char} (nonempty : word ≠ []) (plain : ∀ c ∈ word, isSpace c = false) :
    ∀ c, (word ++ s).head? = some c → isSpace c = false := by
  obtain ⟨d, more, rfl⟩ := List.exists_cons_of_ne_nil nonempty
  rintro c ⟨⟩
  exact plain d List.mem_cons_self

theorem skipBlanks_append (blanks : List Char) (spaces : ∀ c ∈ blanks, isSpace c) :
    skipBlanks (blanks ++ s) = skipBlanks s := List.dropWhile_append_of_pos spaces

end Blanks

/-! Numbers. -/

section Numbers
variable {base : Nat} {c : Char} {digits rest : List Char}

theorem digit_plain (small : base ≤ 36) (digit : isDigit base c) :
    isSpace c = false ∧ c ≠ '-' ∧ c ≠ '+' ∧ c ≠ 'x' ∧ c ≠ 'X' := by
  have below : digitValue c < 36 := Nat.lt_of_lt_of_le (of_decide_eq_true digit) small
  refine ⟨?_, ?_, ?_, ?_, ?_⟩
  · rw [Bool.eq_false_iff]
    intro space
    have code : c.toNat = 32 ∨ 9 ≤ c.toNat ∧ c.toNat ≤ 13 := by simpa [isSpace] using space
    have none : digitValue c = 36 := by
      simp only [digitValue, Char.reduceToNat]
      rw [if_neg (by omega), if_neg (by omega), if_neg (by omega)]
    omega
  all_goals
    rintro rfl
    revert below
    decide

theorem isDigit_mono {larger : Nat} (le : base ≤ larger) (digit : isDigit base c) : isDigit larger c :=
  decide_eq_true (Nat.lt_of_lt_of_le (of_decide_eq_true digit) le)

theorem value_lt (digits : List Char) (all : ∀ c ∈ digits, isDigit base c) :
    value base digits < base ^ digits.length := by
  induction digits using List.reverseRecOn with
  | nil => exact Nat.one_pos
  | append_singleton digits c ih =>
      have lower := ih fun d member => all d (List.mem_append_left _ member)
      have digit : digitValue c < base := of_decide_eq_true (all c (by simp))
      rw [value, List.foldl_append, List.length_append, List.length_singleton, Nat.pow_succ]
      change value base digits * base + digitValue c < _
      have room := Nat.mul_le_mul_right base lower
      rw [Nat.succ_mul] at room
      omega

/-- What stands behind a number and cannot be taken for a part of it. -/
def Behind (base : Nat) (rest : List Char) : Prop :=
  ∀ c, rest.head? = some c → isDigit base c = false ∧ c ≠ 'x' ∧ c ≠ 'X'

theorem behind_cons (other : isDigit base c = false) (lower : c ≠ 'x') (upper : c ≠ 'X') :
    Behind base (c :: rest) := by
  rintro c' ⟨⟩
  exact ⟨other, lower, upper⟩

theorem digits_end (all : ∀ c ∈ digits, isDigit base c) (behind : Behind base rest) :
    (digits ++ rest).takeWhile (isDigit base) = digits ∧
      (digits ++ rest).dropWhile (isDigit base) = rest := by
  rw [List.takeWhile_append_of_pos all, List.dropWhile_append_of_pos all]
  cases rest with
  | nil => exact ⟨List.append_nil _, rfl⟩
  | cons c rest => simp [(behind c rfl).1]

theorem digits_split (s : List Char) (digit : isDigit base c) :
    ∃ number rest, number ++ rest = c :: s ∧ number ≠ [] ∧ (∀ d ∈ number, isDigit base d) ∧
      ∀ d, rest.head? = some d → isDigit base d = false := by
  refine ⟨_, _, List.takeWhile_append_dropWhile (p := isDigit base), ?_, ?_, ?_⟩
  · rw [List.takeWhile_cons_of_pos digit]
    exact List.cons_ne_nil _ _
  · exact fun d member => List.all_eq_true.mp List.all_takeWhile d member
  · intro d head
    have stop := List.head?_dropWhile_not (isDigit base) (c :: s)
    rw [head] at stop
    exact stop

theorem skipBase_digits (small : base ≤ 36) (nonempty : digits ≠ [])
    (all : ∀ c ∈ digits, isDigit base c) (behind : Behind base rest) :
    skipBase (digits ++ rest) = digits ++ rest := by
  rw [skipBase.eq_def]
  split
  · next c s same =>
    have other : ¬(c = 'x' ∨ c = 'X') := by
      rcases digits with _ | ⟨zero, _ | ⟨next, digits⟩⟩
      · exact absurd rfl nonempty
      · have tail : rest = c :: s := (List.cons.inj same).2
        exact not_or.mpr (behind c (by rw [tail, List.head?_cons])).2
      · have second : next = c := (List.cons.inj (List.cons.inj same).2).1
        have digit := digit_plain small (all c (by simp [second]))
        exact not_or.mpr digit.2.2.2
    rw [if_neg other, same]
  · rfl

theorem signOf_digits (small : base ≤ 36) (nonempty : digits ≠ []) (all : ∀ c ∈ digits, isDigit base c) :
    signOf (digits ++ rest) = (false, digits ++ rest) := by
  cases digits with
  | nil => exact absurd rfl nonempty
  | cons c digits =>
      obtain ⟨-, minus, plus, -⟩ := digit_plain small (all c List.mem_cons_self)
      rw [List.cons_append, signOf, if_neg minus, if_neg plus]

theorem skipBlanks_digits (small : base ≤ 36) (nonempty : digits ≠ [])
    (all : ∀ c ∈ digits, isDigit base c) : skipBlanks (digits ++ rest) = digits ++ rest :=
  skipBlanks_word (word_head nonempty fun c member => (digit_plain small (all c member)).1)

theorem integer_digits (small : base ≤ 36) (nonempty : digits ≠ [])
    (all : ∀ c ∈ digits, isDigit base c) (behind : Behind base rest) :
    integer base (digits ++ rest) = some (false, value base digits, rest) := by
  obtain ⟨front, back⟩ := digits_end all behind
  have whole : (if base = 16 then skipBase (digits ++ rest) else digits ++ rest) = digits ++ rest := by
    rw [skipBase_digits small nonempty all behind, ite_self]
  rw [integer, skipBlanks_digits small nonempty all, signOf_digits small nonempty all]
  simp only [whole, front, back, if_neg nonempty]

end Numbers

/-! One directive after another. -/

section Directives
variable {format : List Directive} {s rest digits : List Char}

theorem sscanf_cons {d : Directive} {field : Option Field} (converted : d.convert s = some (field, rest)) :
    sscanf (d :: format) s = field.toList ++ sscanf format rest := by
  rw [sscanf, converted]

theorem sscanf_fails {d : Directive} (fails : d.convert s = none) : sscanf (d :: format) s = [] := by
  rw [sscanf, fails]

theorem sscanf_literal (c : Char) : sscanf (.literal c :: format) (c :: s) = sscanf format s := by
  have converted : Directive.convert (.literal c) (c :: s) = some (none, s) := if_pos rfl
  rw [sscanf_cons converted]
  rfl

theorem sscanf_literals (word : List Char) :
    sscanf (word.map .literal ++ format) (word ++ s) = sscanf format s := by
  induction word with
  | nil => rfl
  | cons c word ih => rw [List.map_cons, List.cons_append, List.cons_append, sscanf_literal, ih]

theorem literals_needed (word : List Char) (assigned : sscanf (word.map .literal ++ format) s ≠ []) :
    word <+: s := by
  induction word generalizing s with
  | nil => exact List.nil_prefix
  | cons c word ih =>
      cases s with
      | nil => exact absurd rfl assigned
      | cons d s =>
          by_cases same : d = c
          · rw [same, List.map_cons, List.cons_append, sscanf_literal] at assigned
            rw [same]
            exact List.cons_prefix_cons.mpr ⟨rfl, ih assigned⟩
          · have stuck : Directive.convert (.literal c) (d :: s) = none := if_neg same
            exact absurd (sscanf_fails stuck) assigned

theorem sscanf_blanks (blanks : List Char) (spaces : ∀ c ∈ blanks, isSpace c)
    (word : ∀ c, s.head? = some c → isSpace c = false) :
    sscanf (.blanks :: format) (blanks ++ s) = sscanf format s := by
  have converted : Directive.convert .blanks (blanks ++ s) = some (none, s) := by
    rw [Directive.convert, skipBlanks_append blanks spaces, skipBlanks_word word]
  rw [sscanf_cons converted]
  rfl

theorem sscanf_blank (word : ∀ c, s.head? = some c → isSpace c = false) :
    sscanf (.blanks :: format) (' ' :: s) = sscanf format s :=
  sscanf_blanks [' '] (List.forall_mem_singleton.mpr (by decide)) word

theorem sscanf_hex (nonempty : digits ≠ []) (fits : digits.length ≤ 16)
    (all : ∀ c ∈ digits, isDigit 16 c) (behind : Behind 16 rest) :
    sscanf (.hex :: format) (digits ++ rest) = .unsigned (value 16 digits) :: sscanf format rest := by
  have below : value 16 digits < 2 ^ 64 :=
    Nat.lt_of_lt_of_le (value_lt digits all) (Nat.pow_le_pow_right (by decide : 0 < 16) fits)
  have cut : toUnsigned false (value 16 digits) = value 16 digits := by
    rw [toUnsigned, if_neg (Nat.not_le_of_lt below)]
    rfl
  have read := integer_digits (by decide) nonempty all behind
  rw [sscanf_cons (by rw [Directive.convert, read, Option.map_some, cut])]
  rfl

theorem sscanf_unsigned (nonempty : digits ≠ []) (all : ∀ c ∈ digits, isDigit 10 c)
    (behind : Behind 10 rest) :
    sscanf (.unsigned :: format) (digits ++ rest) =
      .unsigned (toUnsigned false (value 10 digits)) :: sscanf format rest := by
  have read := integer_digits (by decide) nonempty all behind
  rw [sscanf_cons (by rw [Directive.convert, read, Option.map_some])]
  rfl

theorem sscanf_no_number (c : Char) (space : isSpace c = false) (minus : c ≠ '-') (plus : c ≠ '+')
    (other : isDigit 10 c = false) : sscanf (.unsigned :: format) (c :: s) = [] := by
  have here : skipBlanks (c :: s) = c :: s := by
    apply skipBlanks_word
    rintro d ⟨⟩
    exact space
  apply sscanf_fails
  rw [Directive.convert, integer, here, signOf, if_neg minus, if_neg plus]
  simp [other]

theorem sscanf_signed (nonempty : digits ≠ []) (all : ∀ c ∈ digits, isDigit 10 c)
    (behind : Behind 10 rest) (fits : value 10 digits < 2 ^ 63) :
    sscanf (.signed :: format) (digits ++ rest) = .signed (value 10 digits) :: sscanf format rest := by
  have cut : toSigned false (value 10 digits) = value 10 digits := by
    rw [toSigned, if_neg Bool.false_ne_true]
    omega
  have read := integer_digits (by decide) nonempty all behind
  rw [sscanf_cons (by rw [Directive.convert, read, Option.map_some, cut])]
  rfl

/-- A word is cut at its width, and the next directive goes on in its middle. -/
theorem sscanf_word (width : Nat) (word : List Char) (nonempty : word ≠ [])
    (plain : ∀ c ∈ word, isSpace c = false) (behind : ∀ c, rest.head? = some c → isSpace c) :
    sscanf (.word (width + 1) :: format) (word ++ rest) =
      .text (word.take (width + 1)) :: sscanf format (word.drop (width + 1) ++ rest) := by
  have here : skipBlanks (word ++ rest) = word ++ rest := skipBlanks_word (word_head nonempty plain)
  have stop : (rest.take (width + 1 - word.length)).takeWhile (fun c => !isSpace c) = [] := by
    cases rest with
    | nil => simp
    | cons c rest => cases width + 1 - word.length <;> simp [behind c rfl]
  have front : ((word ++ rest).take (width + 1)).takeWhile (fun c => !isSpace c) = word.take (width + 1) := by
    rw [List.take_append, List.takeWhile_append_of_pos, stop, List.append_nil]
    intro c member
    simp [plain c (List.mem_of_mem_take member)]
  have back : (word ++ rest).drop (word.take (width + 1)).length = word.drop (width + 1) ++ rest := by
    rw [List.length_take, List.drop_append]
    rcases Nat.le_total (width + 1) word.length with cut | whole
    · rw [Nat.min_eq_left cut, Nat.sub_eq_zero_of_le cut, List.drop_zero]
    · rw [Nat.min_eq_right whole, List.drop_length, List.drop_of_length_le whole, Nat.sub_self, List.drop_zero]
  have some : word.take (width + 1) ≠ [] := by
    cases word with
    | nil => exact absurd rfl nonempty
    | cons c word => exact List.cons_ne_nil c _
  rw [sscanf_cons (by rw [Directive.convert, here, front, if_neg some, back])]
  rfl

theorem sscanf_line (width : Nat) (c : Char) (inside : c ≠ '\n') : ∃ more,
    sscanf [.line (width + 1)] (c :: s) = [.text (c :: more)] := by
  refine ⟨(s.take width).takeWhile fun c => c != '\n', ?_⟩
  rw [sscanf, Directive.convert, List.take_succ_cons, List.takeWhile_cons_of_pos (by simpa using inside),
    if_neg (List.cons_ne_nil _ _)]
  rfl

end Directives

/-! The fields that a format can leave. -/

def Assigned : Directive → List Field → Prop
  | .blanks, fields | .literal _, fields => fields = []
  | .hex, fields | .unsigned, fields => ∃ n, fields = [.unsigned n]
  | .signed, fields => ∃ n, fields = [.signed n]
  | .word _, fields | .line _, fields => ∃ s, fields = [.text s]

/-- The directives assign in order, and stop anywhere. -/
def Shape : List Directive → List Field → Prop
  | [], fields => fields = []
  | d :: format, fields =>
      fields = [] ∨ ∃ front back, Assigned d front ∧ Shape format back ∧ fields = front ++ back

theorem convert_assigned (d : Directive) (s rest : List Char) (field : Option Field)
    (converted : d.convert s = some (field, rest)) : Assigned d field.toList := by
  cases d with
  | blanks => cases converted; rfl
  | literal c =>
      cases s with
      | nil => cases converted
      | cons d s =>
          rw [Directive.convert] at converted
          split at converted
          · cases converted; rfl
          · cases converted
  | hex | unsigned | signed =>
      obtain ⟨read, -, same⟩ := Option.map_eq_some_iff.mp converted
      cases same
      exact ⟨_, rfl⟩
  | word width | line width =>
      simp only [Directive.convert] at converted
      split at converted
      · cases converted
      · cases converted
        exact ⟨_, rfl⟩

theorem sscanf_shape (format : List Directive) (s : List Char) : Shape format (sscanf format s) := by
  induction format generalizing s with
  | nil => rfl
  | cons d format ih =>
      cases converted : d.convert s with
      | none => exact .inl (sscanf_fails converted)
      | some result =>
          obtain ⟨field, rest⟩ := result
          exact .inr ⟨_, _, convert_assigned d s rest field converted, ih rest, sscanf_cons converted⟩

end LinuxMemory.Scanf
