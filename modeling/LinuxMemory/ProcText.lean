import LinuxMemory.Scanf
import LinuxMemory.Stdio

/-!
The lines of `/proc/<pid>/maps` and `/proc/<pid>/smaps` as the kernel prints
them. A line of the first describes one mapping (VMA); in the second the same
line heads a record of attributes. Numbers are kept as they are printed.
-/

namespace LinuxMemory.ProcText

open Scanf Stdio

theorem every {p : Char → Prop} [DecidablePred p] {text : List Char}
    (checked : text.all (fun c => decide (p c)) = true) : ∀ c ∈ text, p c :=
  fun c member => of_decide_eq_true (List.all_eq_true.mp checked c member)

/-- A printed number, with the bounds of its field on the digits. -/
structure Digits (base least most : Nat) where
  digits : List Char
  least_le : least ≤ digits.length
  le_most : digits.length ≤ most
  all : ∀ c ∈ digits, isDigit base c

def Digits.value {base least most : Nat} (number : Digits base least most) : Nat :=
  Scanf.value base number.digits

/-- A path or a name in brackets. The blanks in front of it end where it starts. -/
structure Path where
  text : List Char
  nonempty : text ≠ []
  length_le : text.length ≤ 4095
  plain : ∀ c ∈ text, c ≠ '\n' ∧ c.toNat ≠ 0
  word : ∀ c, text.head? = some c → isSpace c = false

structure Vma where
  start : Digits 16 1 16
  fin : Digits 16 1 16
  perms : List Char
  offset : Digits 16 1 16
  major : Digits 16 2 3
  minor : Digits 16 2 5
  inode : Digits 10 1 20
  pad : Nat
  path : Option Path
  increasing : start.value < fin.value
  perms_length : perms.length = 4
  perms_plain : ∀ c ∈ perms, isSpace c = false ∧ c.toNat ≠ 0
  pad_le : pad ≤ 73
  pad_path : path ≠ none → 0 < pad

namespace Vma
variable (v : Vma)

def dev : List Char := v.major.digits ++ ':' :: v.minor.digits

def pathText : List Char := (v.path.map Path.text).getD []

def blanks : List Char := List.replicate v.pad ' '

def fields : List Char :=
  v.start.digits ++ '-' :: (v.fin.digits ++ ' ' :: (v.perms ++ ' ' :: (v.offset.digits ++
    ' ' :: (v.dev ++ ' ' :: (v.inode.digits ++ v.blanks)))))

def text : List Char := v.fields ++ (v.pathText ++ ['\n'])

end Vma

/-- `Name: value kB`, or without the unit. -/
structure Attribute where
  name : List Char
  pad : Nat
  value : Digits 10 1 20
  inKb : Bool
  nonempty : name ≠ []
  plain : ∀ c ∈ name, c ≠ ':' ∧ c ≠ '\n' ∧ c.toNat ≠ 0
  pad_le : pad ≤ 24
  fits : value.value < 2 ^ 63

def Attribute.text (a : Attribute) : List Char :=
  a.name ++ ':' :: (List.replicate a.pad ' ' ++ (a.value.digits ++
    ((if a.inKb then [' ', 'k', 'B'] else []) ++ ['\n'])))

structure Record where
  header : Vma
  attributes : List Attribute
  flags : List Char
  flags_plain : ∀ c ∈ flags, c ≠ '\n' ∧ c.toNat ≠ 0

namespace Record
variable (r : Record)

def flagsText : List Char := 'V' :: 'm' :: 'F' :: 'l' :: 'a' :: 'g' :: 's' :: ':' :: (r.flags ++ ['\n'])

def text : List Char := r.header.text ++ (r.attributes.flatMap Attribute.text ++ r.flagsText)

end Record

def mapsText (vmas : List Vma) : List Char := vmas.flatMap Vma.text

def smapsText (records : List Record) : List Char := records.flatMap Record.text

/-! Every part of a text is a complete line. -/

section Lines
variable {base least most : Nat}

theorem digit_ne {c d : Char} (digit : isDigit base c) (other : isDigit base d = false) : c ≠ d := by
  rintro rfl
  rw [digit] at other
  cases other

theorem Digits.nonempty (number : Digits base (least + 1) most) : number.digits ≠ [] := by
  have positive := number.least_le
  intro empty
  rw [empty] at positive
  exact absurd positive (Nat.not_succ_le_zero least)

theorem Digits.plain (number : Digits base least most) (small : base ≤ 36) :
    ∀ c ∈ number.digits, isSpace c = false :=
  fun c member => (digit_plain small (number.all c member)).1

theorem blanks_space (count : Nat) : ∀ c ∈ List.replicate count ' ', isSpace c := by
  intro c member
  rw [List.eq_of_mem_replicate member]
  decide

theorem not_newline (small : base ≤ 36) (number : Digits base least most) : '\n' ∉ number.digits := by
  intro member
  exact absurd (number.plain small _ member) (by decide)

theorem Vma.pathText_plain (v : Vma) : '\n' ∉ v.pathText := by
  unfold Vma.pathText
  cases v.path with
  | none => exact List.not_mem_nil
  | some path => exact fun member => (path.plain _ member).1 rfl

theorem Vma.fields_plain (v : Vma) : '\n' ∉ v.fields := by
  have perms : '\n' ∉ v.perms := fun member => absurd (v.perms_plain _ member).1 (by decide)
  simp [Vma.fields, Vma.dev, Vma.blanks, not_newline, perms]

theorem Vma.line (v : Vma) : Line v.text := by
  refine ⟨v.fields ++ v.pathText, by rw [Vma.text, List.append_assoc], ?_⟩
  rw [List.mem_append, not_or]
  exact ⟨v.fields_plain, v.pathText_plain⟩

theorem Attribute.line (a : Attribute) : Line a.text := by
  refine ⟨a.name ++ ':' :: (List.replicate a.pad ' ' ++ (a.value.digits ++
    (if a.inKb then [' ', 'k', 'B'] else []))), by simp [Attribute.text], ?_⟩
  have name : '\n' ∉ a.name := fun member => (a.plain _ member).2.1 rfl
  cases a.inKb <;> simp [name, not_newline]

theorem Record.flags_line (r : Record) : Line r.flagsText := by
  refine ⟨'V' :: 'm' :: 'F' :: 'l' :: 'a' :: 'g' :: 's' :: ':' :: r.flags, rfl, ?_⟩
  have plain : '\n' ∉ r.flags := fun member => (r.flags_plain _ member).1 rfl
  simp [plain]

theorem Vma.fields_length (v : Vma) : v.fields.length ≤ 159 := by
  have start := v.start.le_most
  have fin := v.fin.le_most
  have offset := v.offset.le_most
  have major := v.major.le_most
  have minor := v.minor.le_most
  have inode := v.inode.le_most
  have perms := v.perms_length
  have pad := v.pad_le
  simp only [Vma.fields, Vma.dev, Vma.blanks, List.length_append, List.length_cons, List.length_replicate]
  omega

theorem Attribute.text_length (a : Attribute) : a.text.length ≤ a.name.length + 49 := by
  have digits := a.value.le_most
  have pad := a.pad_le
  have unit : (if a.inKb then [' ', 'k', 'B'] else []).length ≤ 3 := by split <;> simp
  simp only [Attribute.text, List.length_append, List.length_cons, List.length_replicate, List.length_nil]
  omega

end Lines

end LinuxMemory.ProcText
