import LinuxMemory.ProcText
import LinuxMemory.Word
import Mathlib.Data.List.Infix

/-!
The report of `13_advanced/01_thp_madvise.c`. After the hint it looks for the
mapping in `/proc/self/smaps` and copies lines from there, until a line seems to
head the next mapping or is the last of the record.
-/

namespace LinuxMemory.HugePageReport

open Scanf Stdio ProcText

/-- `snprintf(our, sizeof our, "%lx-%lx", p, p + len)`. -/
def our (p len : Nat) : List Char := Nat.toDigits 16 p ++ '-' :: Nat.toDigits 16 (Word.add p len)

def contains (line our : List Char) : Bool := our <:+: line

/-- `line[0] != ' ' && strchr(line, '-') == NULL`. -/
def nextVma (line : List Char) : Bool := line.head? ≠ some ' ' && '-' ∉ line

def lastLine (line : List Char) : Bool := line.take 8 = "VmFlags:".toList

/-- What the passes of the loop print, with `in_ours` before them. -/
def scan (our : List Char) : Bool → List (List Char) → List (List Char)
  | _, [] => []
  | inOurs, line :: lines =>
      if contains line our || inOurs then
        if nextVma line then [line]
        else if lastLine line then [line]
        else line :: scan our true lines
      else scan our false lines

def report (our text : List Char) : List Char := (scan our false (pieces 511 text)).flatten

/-- The record of the mapping is printed, and nothing else. -/
def Reported (our : List Char) (records : List Record) : Prop :=
  ∀ r ∈ records, our <+: r.header.text → report our (smapsText records) = r.text

/-! Where the loop stops. -/

section Loop
variable (our : List Char)

theorem scan_step (line : List Char) (lines : List (List Char)) : scan our true (line :: lines) = [line] ∨
    nextVma line = false ∧ scan our true (line :: lines) = line :: scan our true lines := by
  rw [scan, if_pos (Bool.or_true _)]
  cases nextVma line with
  | true => exact .inl rfl
  | false =>
      cases lastLine line with
      | true => exact .inl rfl
      | false => exact .inr ⟨rfl, rfl⟩

theorem scan_prefix (lines : List (List Char)) : scan our true lines <+: lines := by
  induction lines with
  | nil => exact List.nil_prefix
  | cons line lines ih =>
      rcases scan_step our line lines with last | ⟨-, onward⟩
      · rw [last]
        exact List.cons_prefix_cons.mpr ⟨rfl, List.nil_prefix⟩
      · rw [onward]
        exact List.cons_prefix_cons.mpr ⟨rfl, ih⟩

/-- The first line that has neither a dash nor a blank in front is the last
that is printed. -/
theorem scan_stops (front back : List (List Char)) (line : List Char) (stops : nextVma line = true) :
    scan our true (front ++ line :: back) <+: front ++ [line] := by
  induction front with
  | nil =>
      rcases scan_step our line back with last | ⟨passes, -⟩
      · rw [List.nil_append, last]
        exact List.prefix_rfl
      · rw [stops] at passes
        cases passes
  | cons first front ih =>
      rcases scan_step our first (front ++ line :: back) with last | ⟨-, onward⟩
      · rw [List.cons_append, last]
        exact List.cons_prefix_cons.mpr ⟨rfl, List.nil_prefix⟩
      · rw [List.cons_append, onward]
        exact List.cons_prefix_cons.mpr ⟨rfl, ih⟩

theorem scan_starts (lines : List (List Char)) : scan our false lines = [] ∨
    ∃ front back, lines = front ++ back ∧ scan our false lines = scan our true back := by
  induction lines with
  | nil => exact .inl rfl
  | cons line lines ih =>
      by_cases found : contains line our = true
      · exact .inr ⟨[], line :: lines, rfl, by rw [scan, scan, found, Bool.true_or, Bool.true_or]⟩
      · have skipped : scan our false (line :: lines) = scan our false lines := by
          rw [scan, if_neg (by simpa using found)]
        rw [skipped]
        rcases ih with nothing | ⟨front, back, rfl, same⟩
        · exact .inl nothing
        · exact .inr ⟨line :: front, back, rfl, same⟩

theorem printed_within {ahead line : List Char} (ended : Ended ahead) (isLine : Line line)
    (single : pieces 511 line = [line]) (stops : nextVma line = true) (rest : List Char) :
    (scan our true (pieces 511 (ahead ++ (line ++ rest)))).flatten.length ≤ ahead.length + line.length := by
  have shape : pieces 511 (ahead ++ (line ++ rest)) = pieces 511 ahead ++ line :: pieces 511 rest := by
    rw [pieces_append _ _ ended, pieces_append _ _ isLine.ended, single, List.singleton_append]
  obtain ⟨unprinted, printed⟩ := scan_stops our (pieces 511 ahead) (pieces 511 rest) line stops
  have front : (pieces 511 ahead).flatten = ahead := pieces_flatten ahead
  have length := congrArg (fun lines => lines.flatten.length) printed
  simp only [List.flatten_append, List.length_append, front, List.flatten_singleton] at length
  rw [shape]
  omega

end Loop

/-! No record is printed whole. -/

section Record
variable {r : Record} {a : Attribute}

theorem huge_stops (named : a.name = "AnonHugePages".toList) :
    nextVma a.text = true ∧ pieces 511 a.text = [a.text] := by
  have short := a.text_length
  rw [named] at short
  refine ⟨?_, pieces_short a.line (Nat.le_trans short (by decide))⟩
  have digits : '-' ∉ a.value.digits :=
    fun member => (digit_plain (by decide) (a.value.all _ member)).2.1 rfl
  have noDash : '-' ∉ a.text := by
    rw [Attribute.text, named]
    cases a.inKb <;> simp [digits]
  have head : a.text.head? = some 'A' := by
    rw [Attribute.text, named]
    rfl
  simp [nextVma, head, noDash]

theorem record_split (listed : a ∈ r.attributes) : ∃ ahead behind,
    Ended ahead ∧ behind ≠ [] ∧ r.text = ahead ++ (a.text ++ behind) := by
  obtain ⟨before, after, attributes⟩ := List.append_of_mem listed
  refine ⟨r.header.text ++ before.flatMap Attribute.text, after.flatMap Attribute.text ++ r.flagsText,
    r.header.line.ended.append (ended_flatMap _ _ fun b _ => b.line.ended), ?_, ?_⟩
  · exact List.append_ne_nil_of_right_ne_nil _ (List.cons_ne_nil _ _)
  · rw [Record.text, attributes]
    simp only [List.flatMap_append, List.flatMap_cons, List.append_assoc]

theorem never_whole (our text : List Char) (listed : a ∈ r.attributes)
    (named : a.name = "AnonHugePages".toList) : report our text ≠ r.text := by
  intro whole
  obtain ⟨ahead, behind, ended, more, split⟩ := record_split listed
  obtain ⟨stops, single⟩ := huge_stops named
  have remains : 0 < behind.length := List.length_pos_iff.mpr more
  rcases scan_starts our (pieces 511 text) with nothing | ⟨front, back, lines, printed⟩
  · rw [report, nothing, split] at whole
    have empty := congrArg List.length whole
    simp only [List.flatten_nil, List.length_nil, List.length_append] at empty
    omega
  · -- What is printed is the start of the text from there on.
    rw [report, printed] at whole
    obtain ⟨unread, isBack⟩ := scan_prefix our back
    have onward : back.flatten = ahead ++ (a.text ++ (behind ++ unread.flatten)) := by
      rw [← isBack, List.flatten_append, whole, split]
      simp only [List.append_assoc]
    have within := printed_within our ended a.line single stops (behind ++ unread.flatten)
    rw [← onward, ← pieces_suffix front back _ lines, whole, split, List.length_append,
      List.length_append] at within
    omega

end Record

/-- Where the records have a line `AnonHugePages` and one header starts with the
range, the record of the mapping is not what is printed. -/
theorem report_never (p len : Nat) (records : List Record)
    (huge : ∀ r ∈ records, ∃ a ∈ r.attributes, a.name = "AnonHugePages".toList)
    (unique : (records.filter fun r => our p len <+: r.header.text).length = 1) :
    ¬ Reported (our p len) records := by
  intro reported
  obtain ⟨r, only⟩ := List.length_eq_one_iff.mp unique
  have member : r ∈ records.filter fun r => our p len <+: r.header.text := by
    rw [only]
    exact List.mem_singleton_self r
  obtain ⟨inside, heads⟩ := List.mem_filter.mp member
  obtain ⟨a, listed, named⟩ := huge r inside
  exact never_whole _ _ listed named (reported r inside (of_decide_eq_true heads))

def hinted : Record where
  header :=
    { start := ⟨"7f0000000000".toList, by decide, by decide, every (by decide)⟩
      fin := ⟨"7f0004000000".toList, by decide, by decide, every (by decide)⟩
      perms := "rw-p".toList
      offset := ⟨"00000000".toList, by decide, by decide, every (by decide)⟩
      major := ⟨"00".toList, by decide, by decide, every (by decide)⟩
      minor := ⟨"00".toList, by decide, by decide, every (by decide)⟩
      inode := ⟨"0".toList, by decide, by decide, every (by decide)⟩
      pad := 1
      path := none
      increasing := by decide
      perms_length := by decide
      perms_plain := every (by decide)
      pad_le := by decide
      pad_path := fun named => absurd rfl named }
  attributes :=
    [⟨"Size".toList, 12, ⟨"65536".toList, by decide, by decide, every (by decide)⟩, true,
        by decide, every (by decide), by decide, by decide⟩,
      ⟨"AnonHugePages".toList, 3, ⟨"65536".toList, by decide, by decide, every (by decide)⟩, true,
        by decide, every (by decide), by decide, by decide⟩]
  flags := " rd wr mr mw me ac sd hg ".toList
  flags_plain := every (by decide)

theorem report_never_hinted : ¬ Reported (our 0x7f0000000000 (64 * 2 ^ 20)) [hinted] :=
  report_never 0x7f0000000000 (64 * 2 ^ 20) [hinted] (by decide +kernel) (by decide +kernel)

/-- The header is followed by the line of `Size`, and the report ends there. -/
theorem huge_pages_missed :
    report (our 0x7f0000000000 (64 * 2 ^ 20)) (smapsText [hinted]) =
        hinted.header.text ++ "Size:            65536 kB\n".toList ∧
      ¬ Reported (our 0x7f0000000000 (64 * 2 ^ 20)) [hinted] := by
  have printed : report (our 0x7f0000000000 (64 * 2 ^ 20)) (smapsText [hinted]) =
      hinted.header.text ++ "Size:            65536 kB\n".toList := by
    decide +kernel
  refine ⟨printed, fun reported => ?_⟩
  have heads : our 0x7f0000000000 (64 * 2 ^ 20) <+: hinted.header.text := by decide +kernel
  have whole := printed.symm.trans (reported hinted (List.mem_singleton_self hinted) heads)
  exact absurd whole (by decide +kernel)

end LinuxMemory.HugePageReport
