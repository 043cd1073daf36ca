import Mathlib.Data.List.Basic
import Mathlib.Data.List.Flatten

/-!
Reading a text with `fgets`. A text is the list of its characters, one for each
byte, and has no null byte. A buffer of `room + 1` bytes takes `room` characters,
so that a line that does not fit reaches the program in several pieces.
-/

namespace LinuxMemory.Stdio

/-- What `fgets` stores, through the first newline or `room` characters, and what
it leaves unread. -/
def fgets : Nat → List Char → List Char × List Char
  | 0, text => ([], text)
  | _ + 1, [] => ([], [])
  | room + 1, c :: text =>
      if c = '\n' then ([c], text)
      else (c :: (fgets room text).1, (fgets room text).2)

/-- What the passes of `while (fgets(line, size, f))` read. Each pass takes at
least one character, so that the length of the text is enough fuel. -/
def passes (room : Nat) : Nat → List Char → List (List Char)
  | 0, _ => []
  | _ + 1, [] => []
  | fuel + 1, c :: text =>
      (fgets room (c :: text)).1 :: passes room fuel (fgets room (c :: text)).2

def pieces (room : Nat) (text : List Char) : List (List Char) := passes room text.length text

def Ended (text : List Char) : Prop := text = [] ∨ ∃ body, text = body ++ ['\n']

def Line (text : List Char) : Prop := ∃ body, text = body ++ ['\n'] ∧ '\n' ∉ body

/-- A text that one call reads and not more, whatever stands behind it. -/
def Piece (room : Nat) (text : List Char) : Prop :=
  text ≠ [] ∧ ∀ rest, fgets room (text ++ rest) = (text, rest)

section Calls
variable (room : Nat) (text rest : List Char)

theorem fgets_append : (fgets room text).1 ++ (fgets room text).2 = text := by
  induction room generalizing text with
  | zero => rfl
  | succ room ih =>
      cases text with
      | nil => rfl
      | cons c text =>
          rw [fgets]
          split
          · rfl
          · rw [List.cons_append, ih]

theorem fgets_progress (c : Char) : (fgets (room + 1) (c :: text)).2.length ≤ text.length := by
  rw [fgets]
  split
  · exact Nat.le_refl _
  · have whole := congrArg List.length (fgets_append room text)
    rw [List.length_append] at whole
    exact Nat.le.intro ((Nat.add_comm _ _).trans whole)

theorem fgets_ended (body : List Char) : fgets room (body ++ '\n' :: rest) =
    ((fgets room (body ++ ['\n'])).1, (fgets room (body ++ ['\n'])).2 ++ rest) := by
  induction room generalizing body with
  | zero => simp [fgets]
  | succ room ih =>
      cases body with
      | nil => simp [fgets]
      | cons c body =>
          simp only [List.cons_append, fgets, ih body]
          split
          · simp
          · rfl

theorem fgets_line (line : Line text) : fgets room text = (text.take room, text.drop room) := by
  obtain ⟨body, rfl, single⟩ := line
  induction room generalizing body with
  | zero => rfl
  | succ room ih =>
      cases body with
      | nil => simp [fgets]
      | cons c body =>
          rw [List.mem_cons, not_or] at single
          rw [List.cons_append, fgets, if_neg (Ne.symm single.1), ih body single.2]
          rfl

end Calls

theorem Ended.suffix {text front rest : List Char} (ended : Ended text) (split : front ++ rest = text) :
    Ended rest := by
  rcases ended with rfl | ⟨body, rfl⟩
  · exact .inl (List.append_eq_nil_iff.mp split).2
  · rcases List.eq_nil_or_concat rest with rfl | ⟨init, last, rfl⟩
    · exact .inl rfl
    · rw [List.concat_eq_append, ← List.append_assoc] at split
      have newline := (List.append_inj' split rfl).2
      exact .inr ⟨init, by rw [List.concat_eq_append, newline]⟩

theorem Ended.append {front back : List Char} (first : Ended front) (second : Ended back) :
    Ended (front ++ back) := by
  rcases second with rfl | ⟨body, rfl⟩
  · rwa [List.append_nil]
  · exact .inr ⟨front ++ body, (List.append_assoc front body _).symm⟩

theorem ended_flatMap {α : Type} (item : α → List Char) (items : List α)
    (ended : ∀ a ∈ items, Ended (item a)) : Ended (items.flatMap item) := by
  induction items with
  | nil => exact .inl rfl
  | cons a items ih =>
      exact (ended a List.mem_cons_self).append (ih fun b member => ended b (List.mem_cons_of_mem a member))

theorem Line.ended {text : List Char} (line : Line text) : Ended text := by
  obtain ⟨body, rfl, -⟩ := line
  exact .inr ⟨body, rfl⟩

section Loop
variable {room : Nat} {text : List Char}

theorem passes_fuel (room fuel more : Nat) (text : List Char) (enough : text.length ≤ fuel) :
    passes (room + 1) (fuel + more) text = passes (room + 1) fuel text := by
  induction fuel generalizing text with
  | zero =>
      rw [List.length_eq_zero_iff.mp (Nat.le_zero.mp enough)]
      cases more <;> rfl
  | succ fuel ih =>
      cases text with
      | nil => rw [Nat.succ_add]; rfl
      | cons c text =>
          have shorter := fgets_progress room text c
          rw [List.length_cons] at enough
          rw [Nat.succ_add, passes, passes, ih _ (by omega)]

@[simp]
theorem pieces_nil : pieces room [] = [] := rfl

theorem pieces_cons (text : List Char) (nonempty : text ≠ []) : pieces (room + 1) text =
    (fgets (room + 1) text).1 :: pieces (room + 1) (fgets (room + 1) text).2 := by
  cases text with
  | nil => exact absurd rfl nonempty
  | cons c text =>
      have shorter := fgets_progress room text c
      have exchange := passes_fuel room (fgets (room + 1) (c :: text)).2.length
        (text.length - (fgets (room + 1) (c :: text)).2.length) _ (Nat.le_refl _)
      rw [Nat.add_sub_cancel' shorter] at exchange
      rw [pieces, List.length_cons, passes, exchange, pieces]

/-- An induction on the passes of the loop. -/
theorem pieces_induction (room : Nat) {motive : List Char → Prop} (done : motive [])
    (pass : ∀ text, text ≠ [] → motive (fgets (room + 1) text).2 → motive text) (text : List Char) :
    motive text := by
  generalize size : text.length = n
  induction n using Nat.strongRecOn generalizing text with
  | ind n ih =>
      cases text with
      | nil => exact done
      | cons c text =>
          have shorter := fgets_progress room text c
          rw [List.length_cons] at size
          exact pass _ (List.cons_ne_nil c text) (ih _ (by omega) _ rfl)

theorem pieces_flatten (text : List Char) : (pieces (room + 1) text).flatten = text := by
  induction text using pieces_induction room with
  | done => rfl
  | pass text nonempty ih => rw [pieces_cons text nonempty, List.flatten_cons, ih, fgets_append]

theorem pieces_suffix (front back : List (List Char)) (text : List Char)
    (split : pieces (room + 1) text = front ++ back) : back = pieces (room + 1) back.flatten := by
  induction front generalizing text with
  | nil =>
      rw [List.nil_append] at split
      rw [← split, pieces_flatten]
  | cons piece front ih =>
      cases text with
      | nil => cases split
      | cons c text =>
          rw [pieces_cons _ (List.cons_ne_nil c text)] at split
          exact ih _ (List.cons.inj split).2

/-- What stands behind complete lines is read as if it stood alone. -/
theorem pieces_append (rest : List Char) (text : List Char) (ended : Ended text) :
    pieces (room + 1) (text ++ rest) = pieces (room + 1) text ++ pieces (room + 1) rest := by
  induction text using pieces_induction room with
  | done => rfl
  | pass text nonempty ih =>
      have later := ih (ended.suffix (fgets_append (room + 1) text))
      rcases ended with rfl | ⟨body, rfl⟩
      · exact absurd rfl nonempty
      · have beyond := fgets_ended (room + 1) rest body
        rw [List.append_assoc, List.singleton_append, pieces_cons _ (by simp), pieces_cons _ nonempty,
          beyond, later, List.cons_append]

theorem pieces_flatMap {α : Type} (item : α → List Char) (items : List α)
    (ended : ∀ a ∈ items, Ended (item a)) :
    pieces (room + 1) (items.flatMap item) = items.flatMap fun a => pieces (room + 1) (item a) := by
  induction items with
  | nil => rfl
  | cons a items ih =>
      rw [List.flatMap_cons, List.flatMap_cons, pieces_append _ _ (ended a List.mem_cons_self),
        ih fun b member => ended b (List.mem_cons_of_mem a member)]

theorem pieces_line (line : Line text) :
    pieces (room + 1) text = text.take (room + 1) :: pieces (room + 1) (text.drop (room + 1)) := by
  have nonempty : text ≠ [] := by
    obtain ⟨body, rfl, -⟩ := line
    simp
  rw [pieces_cons text nonempty, fgets_line (room + 1) text line]

theorem pieces_short (line : Line text) (short : text.length ≤ room + 1) :
    pieces (room + 1) text = [text] := by
  rw [pieces_line line, List.take_of_length_le short, List.drop_of_length_le short, pieces_nil]

/-- In a text whose last line is complete a call stops at a newline or at the end of its
buffer, and would have stopped there before any other text. -/
theorem fgets_again (room : Nat) (rest text : List Char) (nonempty : text ≠ []) (ended : Ended text) :
    fgets room ((fgets room text).1 ++ rest) = ((fgets room text).1, rest) := by
  induction room generalizing text with
  | zero => rfl
  | succ room ih =>
      cases text with
      | nil => exact absurd rfl nonempty
      | cons c text =>
          by_cases newline : c = '\n'
          · simp only [fgets, if_pos newline, List.cons_append, List.nil_append]
          · have more : text ≠ [] := by
              rintro rfl
              obtain ⟨body, whole⟩ := ended.resolve_left (List.cons_ne_nil _ _)
              have last := (List.append_inj' (show [] ++ [c] = body ++ ['\n'] from whole) rfl).2
              exact newline (List.head_eq_of_cons_eq last)
            have later := ih text more (ended.suffix (show [c] ++ text = c :: text from rfl))
            simp only [fgets, if_neg newline, List.cons_append, later]

theorem pieces_are (text : List Char) (ended : Ended text) :
    ∀ piece ∈ pieces (room + 1) text, Piece (room + 1) piece := by
  induction text using pieces_induction room with
  | done => exact fun _ member => absurd member List.not_mem_nil
  | pass text nonempty ih =>
      rw [pieces_cons text nonempty, List.forall_mem_cons]
      refine ⟨⟨?_, fun rest => fgets_again (room + 1) rest text nonempty ended⟩,
        ih (ended.suffix (fgets_append (room + 1) text))⟩
      intro none
      cases text with
      | nil => exact nonempty rfl
      | cons c text =>
          rw [fgets] at none
          split at none <;> cases none

theorem pieces_join (parts : List (List Char)) (all : ∀ part ∈ parts, Piece (room + 1) part) :
    pieces (room + 1) parts.flatten = parts := by
  induction parts with
  | nil => rfl
  | cons part parts ih =>
      rw [List.forall_mem_cons] at all
      obtain ⟨⟨nonempty, reads⟩, later⟩ := all
      rw [List.flatten_cons, pieces_cons _ (List.append_ne_nil_of_left_ne_nil nonempty _), reads, ih later]

theorem Line.piece (line : Line text) (short : text.length ≤ room + 1) : Piece (room + 1) text := by
  have reads := fgets_line (room + 1) text line
  rw [List.take_of_length_le short, List.drop_of_length_le short] at reads
  obtain ⟨body, rfl, -⟩ := line
  refine ⟨by simp, fun rest => ?_⟩
  rw [List.append_assoc, List.singleton_append, fgets_ended, reads, List.nil_append]

end Loop

/-! A program that reads lines through `fgets`, one piece after another. -/

def laterPieces (room : Nat) (line : List Char) : List (List Char) := pieces room (line.drop room)

section Reading
variable {α β : Type} (room : Nat)

theorem flatMap_inj (f g : α → List β) (sizes : ∀ a, (f a).length = (g a).length)
    (parts : List α) : parts.flatMap f = parts.flatMap g ↔ ∀ a ∈ parts, f a = g a := by
  induction parts with
  | nil => simp
  | cons a parts ih =>
      rw [List.flatMap_cons, List.flatMap_cons, List.forall_mem_cons, ← ih]
      constructor
      · exact fun same => List.append_inj same (sizes a)
      · rintro ⟨here, later⟩
        rw [here, later]

theorem pieces_lines (item : α → List Char) (items : List α) (line : ∀ a ∈ items, Line (item a)) :
    pieces (room + 1) (items.flatMap item) = items.flatMap fun a =>
      (item a).take (room + 1) :: laterPieces (room + 1) (item a) := by
  rw [pieces_flatMap item items fun a member => (line a member).ended]
  exact List.flatMap_congr fun a member => pieces_line (line a member)

/-- A program that should find something in each line finds it there and nowhere
else exactly when it reads the first pieces right and nothing in the others. -/
theorem read_lines_iff (read : List Char → Option β) (own : α → Option β) (item : α → List Char)
    (items : List α) (line : ∀ a ∈ items, Line (item a)) :
    (pieces (room + 1) (items.flatMap item)).map read =
        (items.flatMap fun a => own a :: (laterPieces (room + 1) (item a)).map fun _ => none) ↔
      ∀ a ∈ items, read ((item a).take (room + 1)) = own a ∧
        ∀ piece ∈ laterPieces (room + 1) (item a), read piece = none := by
  rw [pieces_lines room item items line, List.map_flatMap,
    flatMap_inj _ _ fun a => by rw [List.length_map, List.length_cons, List.length_cons, List.length_map]]
  refine forall₂_congr fun a _ => ?_
  rw [List.map_cons, List.cons.injEq, List.map_inj_left]

theorem length_flatMap_le (front behind own : α → List β) (parts : List α)
    (sizes : ∀ a ∈ parts, (front a).length = (own a).length) :
    (parts.flatMap own).length ≤ (parts.flatMap fun a => front a ++ behind a).length := by
  induction parts with
  | nil => exact Nat.le_refl _
  | cons a parts ih =>
      have later := ih fun b member => sizes b (List.mem_cons_of_mem a member)
      have here := sizes a List.mem_cons_self
      simp only [List.flatMap_cons, List.length_append]
      omega

theorem flatMap_front_inj (front behind own : α → List β) (parts : List α)
    (sizes : ∀ a ∈ parts, (front a).length = (own a).length) :
    (parts.flatMap fun a => front a ++ behind a) = parts.flatMap own ↔
      ∀ a ∈ parts, front a = own a ∧ behind a = [] := by
  induction parts with
  | nil => simp
  | cons a parts ih =>
      have later := ih fun b member => sizes b (List.mem_cons_of_mem a member)
      have atLeast := length_flatMap_le front behind own parts
        fun b member => sizes b (List.mem_cons_of_mem a member)
      rw [List.flatMap_cons, List.flatMap_cons, List.forall_mem_cons, ← later, List.append_assoc]
      constructor
      · intro same
        obtain ⟨first, rest⟩ := List.append_inj same (sizes a List.mem_cons_self)
        have lengths := congrArg List.length rest
        rw [List.length_append] at lengths
        have empty : behind a = [] := List.eq_nil_of_length_eq_zero (by omega)
        rw [empty, List.nil_append] at rest
        exact ⟨⟨first, empty⟩, rest⟩
      · rintro ⟨⟨first, empty⟩, rest⟩
        rw [first, empty, List.nil_append, rest]

theorem flatten_lines_inj (left right : List (List Char)) (leftLines : ∀ l ∈ left, Line l)
    (rightLines : ∀ l ∈ right, Line l) (same : left.flatten = right.flatten) : left = right := by
  have whole : ∀ lines : List (List Char), (∀ l ∈ lines, Line l) →
      pieces (lines.flatten.length + 1) lines.flatten = lines := fun lines all =>
    pieces_join lines fun l member => (all l member).piece
      (Nat.le_succ_of_le (List.sublist_flatten_of_mem member).length_le)
  rw [← whole left leftLines, same, whole right rightLines]

/-- The same of a program that prints lines of its own for some of what it reads. -/
theorem print_lines_iff (print : List Char → List (List Char)) (own : α → List (List Char))
    (item : α → List Char) (items : List α) (line : ∀ a ∈ items, Line (item a))
    (counts : ∀ a ∈ items, (print ((item a).take (room + 1))).length = (own a).length)
    (printed : ∀ piece, ∀ l ∈ print piece, Line l) (owned : ∀ a ∈ items, ∀ l ∈ own a, Line l) :
    ((pieces (room + 1) (items.flatMap item)).flatMap print).flatten = (items.flatMap own).flatten ↔
      ∀ a ∈ items, print ((item a).take (room + 1)) = own a ∧
        ∀ piece ∈ laterPieces (room + 1) (item a), print piece = [] := by
  have shape : (pieces (room + 1) (items.flatMap item)).flatMap print = items.flatMap fun a =>
      print ((item a).take (room + 1)) ++ (laterPieces (room + 1) (item a)).flatMap print := by
    rw [pieces_lines room item items line, List.flatMap_assoc]
    rfl
  have lines : (((pieces (room + 1) (items.flatMap item)).flatMap print).flatten =
      (items.flatMap own).flatten) ↔
      (pieces (room + 1) (items.flatMap item)).flatMap print = items.flatMap own := by
    refine ⟨flatten_lines_inj _ _ ?_ ?_, congrArg List.flatten⟩
    · intro l member
      obtain ⟨piece, _, inside⟩ := List.mem_flatMap.mp member
      exact printed piece l inside
    · intro l member
      obtain ⟨a, listed, inside⟩ := List.mem_flatMap.mp member
      exact owned a listed l inside
  rw [lines, shape, flatMap_front_inj _ _ _ _ counts]
  simp only [List.flatMap_eq_nil_iff]

theorem flatMap_filter_eq_iff (part : α → List β) (wanted : α → Bool) (items : List α) :
    items.flatMap part = (items.filter wanted).flatMap part ↔
      ∀ a ∈ items, wanted a = false → part a = [] := by
  induction items with
  | nil => simp
  | cons a items ih =>
      rw [List.forall_mem_cons, ← ih, List.flatMap_cons]
      cases isWanted : wanted a with
      | true =>
          rw [List.filter_cons_of_pos isWanted, List.flatMap_cons, List.append_cancel_left_eq]
          exact ⟨fun same => ⟨fun other => absurd other Bool.noConfusion, same⟩, And.right⟩
      | false =>
          have fewer := (show (items.filter wanted).Sublist items from List.filter_sublist).flatMap part
          rw [List.filter_cons_of_neg (by rw [isWanted]; exact Bool.false_ne_true)]
          constructor
          · intro same
            have lengths := congrArg List.length same
            rw [List.length_append] at lengths
            have atMost := fewer.length_le
            have empty : part a = [] := List.eq_nil_of_length_eq_zero (by omega)
            rw [empty, List.nil_append] at same
            exact ⟨fun _ => empty, same⟩
          · rintro ⟨empty, same⟩
            rw [empty rfl, List.nil_append, same]

/-- A program that copies some of what it reads copies the wanted lines exactly when it
keeps every piece of them and no piece of another line. -/
theorem filter_lines_iff (keep : List Char → Bool) (wanted : α → Bool) (item : α → List Char)
    (items : List α) (line : ∀ a ∈ items, Line (item a)) :
    ((pieces (room + 1) (items.flatMap item)).filter keep).flatten = (items.filter wanted).flatMap item ↔
      ∀ a ∈ items, ∀ piece ∈ pieces (room + 1) (item a), keep piece = wanted a := by
  have all : ∀ piece ∈ pieces (room + 1) (items.flatMap item), Piece (room + 1) piece :=
    pieces_are _ (ended_flatMap item items fun a member => (line a member).ended)
  have cut (some : List α) (among : some ⊆ items) : pieces (room + 1) (some.flatMap item) =
      some.flatMap fun a => pieces (room + 1) (item a) :=
    pieces_flatMap item some fun a member => (line a (among member)).ended
  -- the text is cut into pieces in one way only
  have texts : ((pieces (room + 1) (items.flatMap item)).filter keep).flatten =
      (items.filter wanted).flatMap item ↔
      (items.flatMap fun a => pieces (room + 1) (item a)).filter keep =
        (items.filter wanted).flatMap fun a => pieces (room + 1) (item a) := by
    rw [← cut items (List.Subset.refl items), ← cut _ fun _ member => List.mem_of_mem_filter member]
    constructor
    · intro same
      rw [← same, pieces_join _ fun piece member => all piece (List.mem_of_mem_filter member)]
    · intro same
      rw [same, pieces_flatten]
  rw [texts, List.filter_flatMap]
  constructor
  · intro same a member piece inside
    have kept : ∀ a ∈ items, wanted a = true → ∀ piece ∈ pieces (room + 1) (item a), keep piece = true := by
      intro a member isWanted piece inside
      have copied : piece ∈ (items.filter wanted).flatMap fun a => pieces (room + 1) (item a) :=
        List.mem_flatMap.mpr ⟨a, List.mem_filter.mpr ⟨member, isWanted⟩, inside⟩
      rw [← same] at copied
      obtain ⟨_, _, found⟩ := List.mem_flatMap.mp copied
      exact List.of_mem_filter found
    have whole : (items.filter wanted).flatMap (fun a => pieces (room + 1) (item a)) =
        (items.filter wanted).flatMap fun a => (pieces (room + 1) (item a)).filter keep :=
      List.flatMap_congr fun a member => (List.filter_eq_self.mpr
        (kept a (List.mem_of_mem_filter member) (List.of_mem_filter member))).symm
    cases isWanted : wanted a with
    | true => exact kept a member isWanted piece inside
    | false =>
        have none := (flatMap_filter_eq_iff _ wanted items).mp (same.trans whole) a member isWanted
        exact Bool.eq_false_iff.mpr (List.filter_eq_nil_iff.mp none piece inside)
  · intro each
    have unwanted : ∀ a ∈ items, wanted a = false → (pieces (room + 1) (item a)).filter keep = [] := by
      intro a member other
      refine List.filter_eq_nil_iff.mpr fun piece inside => ?_
      rw [each a member piece inside, other]
      exact Bool.false_ne_true
    rw [(flatMap_filter_eq_iff _ wanted items).mpr unwanted]
    refine List.flatMap_congr fun a member => List.filter_eq_self.mpr fun piece inside => ?_
    rw [each a (List.mem_of_mem_filter member) piece inside, List.of_mem_filter member]

end Reading

end LinuxMemory.Stdio
