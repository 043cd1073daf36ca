import LinuxMemory.ProcText
import Mathlib.Data.List.Infix

/-!
`count_anon_vmas` of `08_arenas_threads.c` and `dump_maps_filtered` of
`03_brk_vs_mmap.c`, which count and copy the lines of `/proc/self/maps` by texts that the
line of a mapping without a file holds. Both look at what `fgets` returns, so that a line
too long for the buffer is looked at more than once.
-/

namespace LinuxMemory.MappingCount

open Stdio ProcText

def marked (line : List Char) : Bool := "00:00 0".toList <:+: line

structure Count where
  anon : Nat
  file : Nat
  deriving DecidableEq

def countLine (count : Count) (line : List Char) : Count :=
  if marked line then { count with anon := count.anon + 1 } else { count with file := count.file + 1 }

def countAnonVmas (text : List Char) : Count := (pieces 511 text).foldl countLine ⟨0, 0⟩

/-- A mapping without a file, as it is printed. -/
def Anonymous (v : Vma) : Prop := v.dev = "00:00".toList ∧ v.inode.digits = ['0']

instance (v : Vma) : Decidable (Anonymous v) := inferInstanceAs (Decidable (_ ∧ _))

theorem foldl_count (lines : List (List Char)) (count : Count) : lines.foldl countLine count =
    ⟨count.anon + lines.countP marked, count.file + lines.countP fun line => !marked line⟩ := by
  induction lines generalizing count with
  | nil => rfl
  | cons line lines ih =>
      rw [List.foldl_cons, ih, List.countP_cons, List.countP_cons]
      cases found : marked line with
      | true =>
          simp only [countLine, found, if_true, Bool.not_true, Bool.false_eq_true, if_false, Count.mk.injEq]
          omega
      | false =>
          simp only [countLine, found, if_true, Bool.not_false, Bool.false_eq_true, if_false, Count.mk.injEq]
          omega

theorem anonymous_marked (v : Vma) (anonymous : Anonymous v) : marked v.text = true := by
  obtain ⟨dev, inode⟩ := anonymous
  refine decide_eq_true ⟨v.start.digits ++ '-' :: (v.fin.digits ++ ' ' :: (v.perms ++ ' ' ::
    (v.offset.digits ++ [' ']))), v.blanks ++ (v.pathText ++ ['\n']), ?_⟩
  simp [Vma.text, Vma.fields, dev, inode]

theorem countP_eq_iff {α : Type} (p q : α → Bool) (items : List α)
    (implies : ∀ a ∈ items, p a = true → q a = true) :
    items.countP q = items.countP p ↔ ∀ a ∈ items, q a = true → p a = true := by
  induction items with
  | nil => simp
  | cons a items ih =>
      rw [List.forall_mem_cons] at implies
      have fewer := List.countP_mono_left implies.2
      rw [List.countP_cons, List.countP_cons, List.forall_mem_cons, ← ih implies.2]
      have here := implies.1
      cases isP : p a <;> cases isQ : q a <;> simp_all; omega

theorem laterPieces_nil (v : Vma) : laterPieces 511 v.text = [] ↔ v.text.length ≤ 511 := by
  constructor
  · intro none
    have flat : (pieces 511 (v.text.drop 511)).flatten = v.text.drop 511 := pieces_flatten _
    rw [laterPieces] at none
    rw [none, List.flatten_nil] at flat
    exact List.drop_eq_nil_iff.mp flat.symm
  · intro short
    rw [laterPieces, List.drop_of_length_le short, pieces_nil]

theorem pieces_length_iff (vmas : List Vma) :
    (pieces 511 (mapsText vmas)).length = vmas.length ↔ ∀ v ∈ vmas, v.text.length ≤ 511 := by
  have lines : pieces 511 (mapsText vmas) = vmas.flatMap fun v =>
      v.text.take 511 :: laterPieces 511 v.text := pieces_lines 510 Vma.text vmas fun v _ => v.line
  rw [lines]
  clear lines
  induction vmas with
  | nil => simp
  | cons v vmas ih =>
      have atLeast := length_flatMap_le (fun v : Vma => [v.text.take 511]) (fun v => laterPieces 511 v.text)
        (fun v => [v.text]) vmas fun _ _ => rfl
      rw [← List.map_eq_flatMap, List.length_map] at atLeast
      simp only [List.singleton_append] at atLeast
      rw [List.forall_mem_cons, ← laterPieces_nil v, ← List.length_eq_zero_iff, List.flatMap_cons,
        List.length_append, List.length_cons, List.length_cons]
      constructor
      · intro same
        exact ⟨by omega, ih.mp (by omega)⟩
      · rintro ⟨single, later⟩
        have rest := ih.mpr later
        omega

theorem pieces_whole (vmas : List Vma) (short : ∀ v ∈ vmas, v.text.length ≤ 511) :
    pieces 511 (mapsText vmas) = vmas.map Vma.text := by
  rw [mapsText, pieces_flatMap _ _ fun v _ => v.line.ended, List.map_eq_flatMap]
  exact List.flatMap_congr fun v member => pieces_short v.line (short v member)

/-- Both counts are right exactly when every line fits the buffer and only mappings
without a file have the text in their lines. -/
theorem counted_iff (vmas : List Vma) : countAnonVmas (mapsText vmas) =
      ⟨vmas.countP fun v => Anonymous v, vmas.countP fun v => ¬ Anonymous v⟩ ↔
    ∀ v ∈ vmas, v.text.length ≤ 511 ∧ (¬ Anonymous v → marked v.text = false) := by
  have total : vmas.length = (vmas.countP fun v => Anonymous v) + vmas.countP fun v => ¬ Anonymous v := by
    simpa using List.length_eq_countP_add_countP (p := fun v => decide (Anonymous v)) (l := vmas)
  have read : (pieces 511 (mapsText vmas)).length = (pieces 511 (mapsText vmas)).countP marked +
      (pieces 511 (mapsText vmas)).countP fun line => !marked line := by
    simpa using List.length_eq_countP_add_countP (p := marked) (l := pieces 511 (mapsText vmas))
  have others := countP_eq_iff (fun v => decide (Anonymous v)) (fun v => marked v.text) vmas
    fun v _ anonymous => anonymous_marked v (of_decide_eq_true anonymous)
  rw [forall₂_and, ← pieces_length_iff, countAnonVmas, foldl_count, Count.mk.injEq, Nat.zero_add,
    Nat.zero_add]
  have marks (whole : (pieces 511 (mapsText vmas)).length = vmas.length) :
      (pieces 511 (mapsText vmas)).countP marked = vmas.countP fun v => marked v.text := by
    rw [pieces_whole vmas ((pieces_length_iff vmas).mp whole), List.countP_map]
    rfl
  constructor
  · rintro ⟨anon, file⟩
    have whole : (pieces 511 (mapsText vmas)).length = vmas.length := by omega
    refine ⟨whole, fun v member other => ?_⟩
    rw [marks whole] at anon
    exact Bool.eq_false_iff.mpr fun found =>
      other (of_decide_eq_true (others.mp anon v member found))
  · rintro ⟨whole, clear⟩
    have anon := others.mpr fun v member found => by
      by_contra other
      rw [clear v member fun anonymous => other (decide_eq_true anonymous)] at found
      contradiction
    rw [← marks whole] at anon
    exact ⟨anon, by omega⟩

/-- The condition of `dump_maps_filtered`. -/
def kept (line : List Char) : Bool :=
  "[heap]".toList <:+: line || "(anon)".toList <:+: line || marked line

def dumpMapsFiltered (text : List Char) : List Char := ((pieces 511 text).filter kept).flatten

theorem first_kept (v : Vma) (anonymous : Anonymous v) : kept (v.text.take 511) = true := by
  obtain ⟨dev, inode⟩ := anonymous
  have found : marked v.fields = true := by
    refine decide_eq_true ⟨v.start.digits ++ '-' :: (v.fin.digits ++ ' ' :: (v.perms ++ ' ' ::
      (v.offset.digits ++ [' ']))), v.blanks, ?_⟩
    simp [Vma.fields, dev, inode]
  have front : v.fields <:+: v.text.take 511 := by
    have short := v.fields_length
    rw [Vma.text, List.take_append, List.take_of_length_le (by omega)]
    exact (List.prefix_append _ _).isInfix
  have there : marked (v.text.take 511) = true :=
    decide_eq_true ((of_decide_eq_true found).trans front)
  exact Bool.or_eq_true_iff.mpr (.inr there)

/-- The copy holds the lines of the mappings without a file, and these only, exactly when
the rest of such a line, if the line does not fit the buffer, has one of the texts in
every piece, and no piece of another line has. The first piece of such a line always has. -/
theorem filtered_iff (vmas : List Vma) :
    (dumpMapsFiltered (mapsText vmas) = mapsText (vmas.filter fun v => Anonymous v) ↔
      ∀ v ∈ vmas, (Anonymous v → ∀ piece ∈ laterPieces 511 v.text, kept piece = true) ∧
        (¬ Anonymous v → ∀ piece ∈ pieces 511 v.text, kept piece = false)) ∧
    ∀ v ∈ vmas, Anonymous v → kept (v.text.take 511) = true := by
  refine ⟨?_, fun v _ anonymous => first_kept v anonymous⟩
  refine (filter_lines_iff 510 kept (fun v => decide (Anonymous v)) Vma.text vmas
    fun v _ => v.line).trans (forall₂_congr fun v _ => ?_)
  by_cases anonymous : Anonymous v
  · have first := first_kept v anonymous
    rw [pieces_line v.line, List.forall_mem_cons, decide_eq_true anonymous]
    exact ⟨fun each => ⟨fun _ => each.2, absurd anonymous⟩, fun each => ⟨first, each.1 anonymous⟩⟩
  · rw [decide_eq_false anonymous]
    exact ⟨fun each => ⟨fun other => absurd other anonymous, fun _ => each⟩, fun each => each.2 anonymous⟩

end LinuxMemory.MappingCount
