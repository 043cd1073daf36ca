import LinuxMemory.ProcText
import LinuxMemory.Word

/-!
The two programs that read `/proc/self/maps`: `01_proc_maps_dump.c` of
`12_debugging_tools` and `03_dump_maps.c` of `02_process_address_space`. Both
run the same loop over the lines and differ in how they write the kind down.
-/

namespace LinuxMemory.ProcMaps

open Scanf Stdio ProcText

inductive Kind where
  | anon
  | bracketed
  | file
deriving DecidableEq

/-- What `sscanf` assigned; `path` is empty where it assigned six fields. -/
structure Row where
  start : Nat
  fin : Nat
  perms : List Char
  off : Nat
  dev : List Char
  inode : Nat
  path : List Char
deriving DecidableEq

def format : List Directive :=
  [.hex, .literal '-', .hex, .blanks, .word 5, .blanks, .hex, .blanks, .word 7, .blanks, .unsigned,
    .blanks, .line 255]

def parse (line : List Char) : Option Row :=
  match sscanf format line with
  | [.unsigned start, .unsigned fin, .text perms, .unsigned off, .text dev, .unsigned inode] =>
      some ⟨start, fin, perms, off, dev, inode, []⟩
  | [.unsigned start, .unsigned fin, .text perms, .unsigned off, .text dev, .unsigned inode, .text path] =>
      some ⟨start, fin, perms, off, dev, inode, path⟩
  | _ => none

def Row.size (row : Row) : Nat := Word.sub row.fin row.start

def dumpKind (path : List Char) : Kind :=
  if path.head? = some '[' then .bracketed else if path.head? = none then .anon else .file

def mapsKind (path : List Char) : Kind :=
  if path.head? = some '[' then .bracketed else if path.head? ≠ none then .file else .anon

/-- What a pass adds to `total` and the kind it settles on; `none` is `continue`. -/
def report (kind : List Char → Kind) (line : List Char) : Option (Nat × Kind) :=
  (parse line).map fun row => (row.size, kind row.path)

def readMaps (kind : List Char → Kind) (text : List Char) : List (Option (Nat × Kind)) :=
  (pieces 511 text).map (report kind)

/-- `total += sz`, unless the pass goes on to the next line. -/
def accumulate (sum : Nat) : Option (Nat × Kind) → Nat
  | none => sum
  | some row => Word.add sum row.1

def total (passes : List (Option (Nat × Kind))) : Nat := passes.foldl accumulate 0

/-! What the loop should report of a mapping. -/

def vmaSize (v : Vma) : Nat := v.fin.value - v.start.value

def vmaKind (v : Vma) : Kind :=
  match v.path with
  | none => .anon
  | some path => if path.text.head? = some '[' then .bracketed else .file

def leftover (v : Vma) : List (List Char) := laterPieces 511 v.text

/-- The pass that starts the line of a mapping reports it, and no other pass
reports anything. -/
def expected (v : Vma) : List (Option (Nat × Kind)) :=
  some (vmaSize v, vmaKind v) :: (leftover v).map fun _ => none

structure Accounted (kind : List Char → Kind) (vmas : List Vma) : Prop where
  sum : total (readMaps kind (mapsText vmas)) = (vmas.map vmaSize).sum
  reports : readMaps kind (mapsText vmas) = vmas.flatMap expected

/-! The kinds. -/

theorem mapsKind_eq : mapsKind = dumpKind := by
  funext path
  cases path <;> simp [mapsKind, dumpKind]

theorem dumpKind_text (path : Path) (cut : List Char) (head : cut.head? = path.text.head?) :
    dumpKind cut = if path.text.head? = some '[' then .bracketed else .file := by
  have first : path.text.head? ≠ none := by
    rw [Ne, List.head?_eq_none_iff]
    exact path.nonempty
  rw [dumpKind, head, if_neg first]

theorem dumpKind_digit {c : Char} (digit : isDigit 16 c) (path : List Char) :
    dumpKind (c :: path) = .file := by
  have other : c ≠ '[' := digit_ne digit (by decide)
  simp [dumpKind, other]

/-! What `sscanf` finds in the first piece of a line. -/

theorem report_assigned (kind : List Char → Kind) {line perms dev path : List Char}
    {start fin off inode : Nat} (assigned : sscanf format line = .unsigned start :: .unsigned fin ::
      .text perms :: .unsigned off :: .text dev :: .unsigned inode ::
        if path = [] then [] else [.text path]) :
    report kind line = some (Word.sub fin start, kind path) := by
  rw [report, parse, assigned]
  by_cases empty : path = []
  · rw [if_pos empty, empty]
    rfl
  · rw [if_neg empty]
    rfl

section Scanning
variable (v : Vma)

theorem dev_nonempty : v.dev ≠ [] := by simp [Vma.dev]

theorem dev_plain : ∀ c ∈ v.dev, isSpace c = false := by
  intro c member
  rcases List.mem_append.mp member with major | member
  · exact v.major.plain (by decide) c major
  · rcases List.mem_cons.mp member with rfl | minor
    · decide
    · exact v.minor.plain (by decide) c minor

theorem dev_digits : ∀ c ∈ v.dev.drop 7, isDigit 16 c := by
  intro c member
  have major := v.major.le_most
  have behind : 7 - v.major.digits.length = 6 - v.major.digits.length + 1 := by omega
  rw [Vma.dev, List.drop_append, List.drop_of_length_le (by omega), List.nil_append, behind,
    List.drop_succ_cons] at member
  exact v.minor.all c (List.mem_of_mem_drop member)

theorem scan_fields (tail : List Char) : sscanf format (v.fields ++ tail) =
    .unsigned v.start.value :: .unsigned v.fin.value :: .text v.perms :: .unsigned v.offset.value ::
      .text (v.dev.take 7) :: sscanf [.blanks, .unsigned, .blanks, .line 255]
        (v.dev.drop 7 ++ ' ' :: (v.inode.digits ++ (v.blanks ++ tail))) := by
  have permsSome : v.perms ≠ [] := List.ne_nil_of_length_pos (by rw [v.perms_length]; decide)
  have perms : ∀ c ∈ v.perms, isSpace c = false := fun c member => (v.perms_plain c member).1
  have permsWhole : v.perms.take 5 = v.perms ∧ v.perms.drop 5 = [] := by
    have short : v.perms.length ≤ 5 := by rw [v.perms_length]; decide
    exact ⟨List.take_of_length_le short, List.drop_of_length_le short⟩
  have spaceBehind : ∀ (rest : List Char) c, (' ' :: rest).head? = some c → isSpace c = true := by
    rintro rest c ⟨⟩
    decide
  -- Of the two words only the device number can be wider than its conversion.
  simp only [format, Vma.fields, List.append_assoc, List.cons_append]
  rw [sscanf_hex v.start.nonempty v.start.le_most v.start.all (behind_cons (by decide) (by decide) (by decide)),
    sscanf_literal,
    sscanf_hex v.fin.nonempty v.fin.le_most v.fin.all (behind_cons (by decide) (by decide) (by decide)),
    sscanf_blank (word_head permsSome perms),
    sscanf_word 4 v.perms permsSome perms (spaceBehind _), permsWhole.1, permsWhole.2, List.nil_append,
    sscanf_blank (word_head v.offset.nonempty (v.offset.plain (by decide))),
    sscanf_hex v.offset.nonempty v.offset.le_most v.offset.all
      (behind_cons (by decide) (by decide) (by decide)),
    sscanf_blank (word_head (dev_nonempty v) (dev_plain v)),
    sscanf_word 6 v.dev (dev_nonempty v) (dev_plain v) (spaceBehind _)]
  rfl

def cutPath : List Char := (v.pathText ++ ['\n']).take (511 - v.fields.length)

theorem first_piece : v.text.take 511 = v.fields ++ cutPath v := by
  have short := v.fields_length
  rw [Vma.text, List.take_append, List.take_of_length_le (by omega), cutPath]

theorem cutPath_none (anonymous : v.path = none) : cutPath v = ['\n'] := by
  have short := v.fields_length
  rw [cutPath, Vma.pathText, anonymous]
  exact List.take_of_length_le (by simp; omega)

theorem cutPath_some (path : Path) (named : v.path = some path) :
    ∃ c more, path.text.head? = some c ∧ cutPath v = c :: more := by
  have short := v.fields_length
  obtain ⟨c, more, same⟩ := List.exists_cons_of_ne_nil path.nonempty
  obtain ⟨room, isRoom⟩ : ∃ room, 511 - v.fields.length = room + 1 := ⟨510 - v.fields.length, by omega⟩
  refine ⟨c, (more ++ ['\n']).take room, by rw [same]; rfl, ?_⟩
  rw [cutPath, Vma.pathText, named, isRoom, Option.map_some, Option.getD_some, same]
  rfl

theorem scan_path : ∃ path, dumpKind path = vmaKind v ∧
    sscanf [.blanks, .line 255] (v.blanks ++ cutPath v) = if path = [] then [] else [.text path] := by
  cases named : v.path with
  | none =>
      have skipped : skipBlanks (v.blanks ++ cutPath v) = [] := by
        rw [Vma.blanks, skipBlanks_append _ (blanks_space v.pad), cutPath_none v named]
        rfl
      refine ⟨[], by simp [vmaKind, named, dumpKind], ?_⟩
      rw [sscanf_cons (by rw [Directive.convert, skipped])]
      rfl
  | some path =>
      obtain ⟨c, more, head, cut⟩ := cutPath_some v path named
      have plain := path.plain c (List.mem_of_mem_head? head)
      obtain ⟨assigned, line⟩ := sscanf_line (s := more) 254 c plain.1
      refine ⟨c :: assigned, ?_, ?_⟩
      · rw [dumpKind_text path (c :: assigned) head.symm, vmaKind, named]
      · rw [Vma.blanks, sscanf_blanks _ (blanks_space v.pad), cut, line, if_neg (List.cons_ne_nil c _)]
        rw [cut]
        rintro d ⟨⟩
        exact path.word c head

theorem inode_behind : Behind 10 (v.blanks ++ cutPath v) := by
  cases pad : v.pad with
  | zero =>
      have anonymous : v.path = none := by
        by_contra named
        exact absurd (v.pad_path named) (by rw [pad]; decide)
      rw [Vma.blanks, pad, cutPath_none v anonymous]
      exact behind_cons (by decide) (by decide) (by decide)
  | succ pad' =>
      rw [Vma.blanks, pad]
      exact behind_cons (by decide) (by decide) (by decide)

theorem size_eq : Word.sub v.fin.value v.start.value = vmaSize v := by
  have below := value_lt v.fin.digits v.fin.all
  have bound : 16 ^ v.fin.digits.length ≤ 2 ^ 64 := Nat.pow_le_pow_right (by decide : 0 < 16) v.fin.le_most
  exact Word.sub_exact _ _ (Nat.le_of_lt v.increasing) (Nat.lt_of_lt_of_le below bound)

theorem report_whole (fits : v.dev.length ≤ 7) :
    report dumpKind (v.text.take 511) = some (vmaSize v, vmaKind v) := by
  obtain ⟨path, kind, scanned⟩ := scan_path v
  have fields : sscanf format (v.text.take 511) = .unsigned v.start.value :: .unsigned v.fin.value ::
      .text v.perms :: .unsigned v.offset.value :: .text v.dev ::
        .unsigned (toUnsigned false v.inode.value) :: if path = [] then [] else [.text path] := by
    rw [first_piece, scan_fields, List.take_of_length_le fits, List.drop_of_length_le fits, List.nil_append,
      sscanf_blank (word_head v.inode.nonempty (v.inode.plain (by decide))),
      sscanf_unsigned v.inode.nonempty v.inode.all (inode_behind v), scanned]
    rfl
  rw [report_assigned _ fields, size_eq, kind]

/-- Behind the digits that are taken for the inode there is a word that starts
with a hexadecimal digit: the rest of the device number or the inode. -/
theorem scan_leftover (number rest : List Char) (leftover : number ++ rest = v.dev.drop 7)
    (ends : ∀ c, rest.head? = some c → isDigit 10 c = false) :
    Behind 10 (rest ++ ' ' :: (v.inode.digits ++ (v.blanks ++ cutPath v))) ∧
      ∃ path, dumpKind path = .file ∧ sscanf [.blanks, .line 255]
        (rest ++ ' ' :: (v.inode.digits ++ (v.blanks ++ cutPath v))) = [.text path] := by
  have line : ∀ c more, isDigit 16 c → ∃ path, dumpKind path = .file ∧
      sscanf [.line 255] (c :: more) = [.text path] := by
    intro c more hex
    have inside : c ≠ '\n' := digit_ne hex (by decide)
    obtain ⟨assigned, scanned⟩ := sscanf_line (s := more) 254 c inside
    exact ⟨c :: assigned, dumpKind_digit hex assigned, scanned⟩
  cases rest with
  | nil =>
      -- All of the leftover was decimal: the real inode starts the path.
      obtain ⟨c, more, inode⟩ := List.exists_cons_of_ne_nil v.inode.nonempty
      have decimal : isDigit 10 c := v.inode.all c (by rw [inode]; exact List.mem_cons_self)
      obtain ⟨path, file, scanned⟩ := line c (more ++ (v.blanks ++ cutPath v)) (isDigit_mono (by decide) decimal)
      refine ⟨behind_cons (by decide) (by decide) (by decide), path, file, ?_⟩
      rw [List.nil_append, sscanf_blank (word_head v.inode.nonempty (v.inode.plain (by decide))), inode]
      exact scanned
  | cons c rest =>
      have hex : isDigit 16 c := dev_digits v c (by rw [← leftover]; simp)
      have plain := digit_plain (by decide) hex
      obtain ⟨path, file, scanned⟩ := line c (rest ++ ' ' :: (v.inode.digits ++ (v.blanks ++ cutPath v))) hex
      refine ⟨behind_cons (ends c rfl) plain.2.2.2.1 plain.2.2.2.2, path, file, ?_⟩
      refine Eq.trans (sscanf_blanks [] (List.forall_mem_nil _) ?_) scanned
      rintro d ⟨⟩
      exact plain.1

/-- The eighth character of a longer device number is read as the inode, if it
can be; the path is then the rest of both. -/
theorem report_cut (c : Char) (cut : v.dev[7]? = some c) : report dumpKind (v.text.take 511) =
    if isDigit 10 c then some (vmaSize v, .file) else none := by
  obtain ⟨long, found⟩ := List.getElem?_eq_some_iff.mp cut
  have leftover : v.dev.drop 7 = c :: v.dev.drop 8 := by
    rw [List.drop_eq_getElem_cons long, found]
  have plain := digit_plain (by decide) (dev_digits v c (by rw [leftover]; exact List.mem_cons_self))
  have unskipped : sscanf [.blanks, .unsigned, .blanks, .line 255]
      (v.dev.drop 7 ++ ' ' :: (v.inode.digits ++ (v.blanks ++ cutPath v))) =
      sscanf [.unsigned, .blanks, .line 255]
        (v.dev.drop 7 ++ ' ' :: (v.inode.digits ++ (v.blanks ++ cutPath v))) :=
    sscanf_blanks [] (List.forall_mem_nil _) (word_head (by rw [leftover]; exact List.cons_ne_nil _ _)
      fun d member => (digit_plain (by decide) (dev_digits v d member)).1)
  by_cases digit : isDigit 10 c
  · obtain ⟨number, rest, split, nonempty, digits, ends⟩ := digits_split (v.dev.drop 8) digit
    rw [← leftover] at split
    obtain ⟨behind, path, file, scanned⟩ := scan_leftover v number rest split ends
    have named : path ≠ [] := by
      rintro rfl
      exact absurd file (by decide)
    have fields : sscanf format (v.text.take 511) = .unsigned v.start.value :: .unsigned v.fin.value ::
        .text v.perms :: .unsigned v.offset.value :: .text (v.dev.take 7) ::
          .unsigned (toUnsigned false (value 10 number)) :: if path = [] then [] else [.text path] := by
      rw [first_piece, scan_fields, unskipped, ← split, List.append_assoc,
        sscanf_unsigned nonempty digits behind, scanned, if_neg named]
    rw [report_assigned _ fields, size_eq, file, if_pos digit]
  · rw [if_neg digit, report, parse, first_piece, scan_fields, unskipped, leftover, List.cons_append,
      sscanf_no_number c plain.1 plain.2.1 plain.2.2.1 (Bool.eq_false_iff.mpr digit)]
    rfl

end Scanning

/-! The whole loop. -/

theorem parse_none_iff (line : List Char) : parse line = none ↔ (sscanf format line).length < 6 := by
  have shape := sscanf_shape format line
  rw [parse]
  generalize sscanf format line = fields at shape
  simp only [format, Shape, Assigned, exists_and_left, ↓existsAndEq, List.append_nil, true_and,
    exists_eq_right', exists_eq_or_imp, exists_eq_left, List.nil_append, or_self_left,
    List.cons_append] at shape
  rcases shape with rfl | ⟨start, rfl | ⟨_, ⟨fin, rfl | ⟨_, ⟨perms, rfl | ⟨_, ⟨off, rfl | ⟨_, ⟨dev,
    rfl | ⟨_, ⟨inode, rfl | ⟨path, rfl⟩⟩, rfl⟩⟩, rfl⟩⟩, rfl⟩⟩, rfl⟩⟩, rfl⟩⟩ <;> simp

/-- The device number fits `dev[8]`, or what is cut off is read as an inode and
leaves the kind as it is. -/
def DevFits (v : Vma) : Prop :=
  v.dev.length ≤ 7 ∨ ∃ c, v.dev[7]? = some c ∧ isDigit 10 c ∧ vmaKind v = .file

/-- No later piece of the line looks like a mapping. -/
def Quiet (v : Vma) : Prop := ∀ piece ∈ leftover v, (sscanf format piece).length < 6

theorem report_none_iff (kind : List Char → Kind) (piece : List Char) :
    report kind piece = none ↔ (sscanf format piece).length < 6 := by
  rw [report, Option.map_eq_none_iff, parse_none_iff]

theorem report_first_iff (v : Vma) :
    report dumpKind (v.text.take 511) = some (vmaSize v, vmaKind v) ↔ DevFits v := by
  rcases Nat.lt_or_ge 7 v.dev.length with long | short
  · have cut : v.dev[7]? = some v.dev[7] := List.getElem?_eq_getElem long
    rw [report_cut v _ cut]
    constructor
    · intro reported
      split at reported
      · next digit => exact .inr ⟨_, cut, digit, (congrArg Prod.snd (Option.some.inj reported)).symm⟩
      · cases reported
    · rintro (short | ⟨c, found, digit, file⟩)
      · omega
      · rw [cut] at found
        rw [Option.some.inj found, if_pos digit, file]
  · exact ⟨fun _ => .inl short, fun _ => report_whole v short⟩

theorem accumulate_expected (v : Vma) (sum : Nat) :
    (expected v).foldl accumulate sum = Word.add sum (vmaSize v) := by
  rw [expected, List.foldl_cons, accumulate]
  generalize leftover v = rest
  induction rest with
  | nil => rfl
  | cons piece rest ih => exact ih

theorem total_expected (vmas : List Vma) :
    total (vmas.flatMap expected) = (vmas.map vmaSize).sum % 2 ^ 64 := by
  have whole : ∀ sum < 2 ^ 64,
      (vmas.flatMap expected).foldl accumulate sum = (sum + (vmas.map vmaSize).sum) % 2 ^ 64 := by
    induction vmas with
    | nil => exact fun sum below => (Nat.mod_eq_of_lt below).symm
    | cons v vmas ih =>
        intro sum _
        rw [List.flatMap_cons, List.foldl_append, accumulate_expected, ih _ (Word.add_lt _ _), Word.add,
          Nat.mod_add_mod, List.map_cons, List.sum_cons, Nat.add_assoc]
  rw [total, whole 0 (by decide), Nat.zero_add]

/-- The reports of the loop are right exactly when every device number fits its
buffer, or does no harm, no later piece of a line looks like a mapping, and the
sizes together fit an `unsigned long`. -/
theorem maps_accounted_iff (vmas : List Vma) :
    (Accounted dumpKind vmas ↔
      (∀ v ∈ vmas, DevFits v ∧ Quiet v) ∧ (vmas.map vmaSize).sum < 2 ^ 64) ∧
    (Accounted mapsKind vmas ↔
      (∀ v ∈ vmas, DevFits v ∧ Quiet v) ∧ (vmas.map vmaSize).sum < 2 ^ 64) := by
  rw [mapsKind_eq, and_self]
  have reports : readMaps dumpKind (mapsText vmas) = vmas.flatMap expected ↔
      ∀ v ∈ vmas, DevFits v ∧ Quiet v := by
    refine (read_lines_iff 510 (report dumpKind) (fun v => some (vmaSize v, vmaKind v)) Vma.text vmas
      fun v _ => v.line).trans (forall₂_congr fun v _ => ?_)
    exact and_congr (report_first_iff v) (forall₂_congr fun piece _ => report_none_iff dumpKind piece)
  constructor
  · rintro ⟨sum, same⟩
    rw [same, total_expected] at sum
    exact ⟨reports.mp same, (Nat.mod_eq_iff_lt (by decide)).mp sum⟩
  · rintro ⟨readable, fits⟩
    have same := reports.mpr readable
    exact ⟨by rw [same, total_expected, Nat.mod_eq_of_lt fits], same⟩

/-- A mapping of a file on the device `103:100fa`. -/
def farPartition : Vma where
  start := ⟨"7f8a1c200000".toList, by decide, by decide, every (by decide)⟩
  fin := ⟨"7f8a1c221000".toList, by decide, by decide, every (by decide)⟩
  perms := "r-xp".toList
  offset := ⟨"00028000".toList, by decide, by decide, every (by decide)⟩
  major := ⟨"103".toList, by decide, by decide, every (by decide)⟩
  minor := ⟨"100fa".toList, by decide, by decide, every (by decide)⟩
  inode := ⟨"1573".toList, by decide, by decide, every (by decide)⟩
  pad := 19
  path := some ⟨"/usr/lib/libc.so".toList, by decide, by decide, every (by decide), by rintro c ⟨⟩; rfl⟩
  increasing := by decide
  perms_length := by decide
  perms_plain := every (by decide)
  pad_le := by decide
  pad_path := fun _ => by decide

/-- `%7s` leaves `fa` of the device number to `%lu`, so that the mapping of
135168 bytes is skipped. -/
theorem far_partition_skipped : total (readMaps dumpKind (mapsText [farPartition])) = 0 ∧
    ¬ Accounted dumpKind [farPartition] ∧ ¬ Accounted mapsKind [farPartition] := by
  have skipped : total (readMaps dumpKind (mapsText [farPartition])) = 0 := by decide +kernel
  have size : ([farPartition].map vmaSize).sum = 135168 := by decide +kernel
  refine ⟨skipped, ?_, ?_⟩
  · intro accounted
    exact absurd (skipped.symm.trans (accounted.sum.trans size)) (by decide)
  · intro accounted
    rw [mapsKind_eq] at accounted
    exact absurd (skipped.symm.trans (accounted.sum.trans size)) (by decide)

end LinuxMemory.ProcMaps
