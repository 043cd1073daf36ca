import LinuxMemory.Mappings
import Mathlib.Data.List.GetD

/-!
`02_file_mmap.c` and `04_file_share_write.c`: a file is mapped, changed through the
mapping and read again from the disk, with any contents. One character stands for each byte.
-/

namespace LinuxMemory.FileMapping

open Mappings

def onDisk (content : List Char) : Objects Unit Char := fun _ i => content.getD i (Char.ofNat 0)

def page (i : Nat) : Nat := i / 4096

def cells (size : Nat) (content : Nat → Char) : List Char := (List.range size).map content

/-- `%s`, and `%.*s` with enough room: up to the first null byte. -/
def printed (text : List Char) : List Char := text.takeWhile fun c => c ≠ Char.ofNat 0

def bufSize : Nat := 64

inductive Outcome where
  -- a file of no length cannot be mapped
  | mmapFails
  -- a store or a load outside an array
  | outside
  | shown (texts : List (List Char))
  deriving DecidableEq

/-- `fread(buf, 1, sizeof buf, f)` from the start of the file. -/
def readDisk (objects : Objects Unit Char) (size : Nat) : List Char :=
  cells (min size bufSize) (objects ())

/-- `02_file_mmap.c` with its message. -/
def fileMmap (message : List Char) : Outcome :=
  let size := message.length
  if size = 0 then .mmapFails
  else
    let disk := onDisk message
    let p := Mapping.mapPrivate () fun _ => none
    let mapped := cells size (p.read page disk)
    let (disk', p') := p.write page disk 0 'H'
    let changed := printed (cells size (p'.read page disk'))
    let buf := readDisk disk' size
    -- `buf[n] = 0`
    if buf.length < bufSize then .shown [mapped, changed, printed buf] else .outside

def storesOf (text : List Char) : List (Nat × Char) := text.zipIdx.map fun entry => (entry.2, entry.1)

def fileShareWrite (content text : List Char) : Outcome :=
  let size := content.length
  if size = 0 then .mmapFails
  else if 4096 * ((size + 4095) / 4096) < text.length then .outside
  else
    let disk := onDisk content
    let p := Mapping.mapShared ()
    let before := cells size (p.read page disk)
    let disk' := (p.writeAll page disk (storesOf text)).1
    .shown [before, printed (readDisk disk' size)]

theorem cells_length (size : Nat) (content : Nat → Char) : (cells size content).length = size := by
  rw [cells, List.length_map, List.length_range]

theorem cells_text (text : List Char) (content : Nat → Char) (size : Nat) (inside : size ≤ text.length)
    (same : ∀ i < size, content i = text.getD i (Char.ofNat 0)) : cells size content = text.take size := by
  apply List.ext_getElem
  · rw [cells_length, List.length_take, Nat.min_eq_left inside]
  · intro i below _
    rw [cells_length] at below
    simp only [cells, List.getElem_map, List.getElem_range, List.getElem_take]
    rw [same i below, List.getD_eq_getElem _ _ (Nat.lt_of_lt_of_le below inside)]

theorem cells_onDisk (content : List Char) (size : Nat) (inside : size ≤ content.length) :
    cells size (onDisk content ()) = content.take size :=
  cells_text content _ size inside fun _ _ => rfl

theorem updateAll_stores (text : List Char) (k : Nat) (content : Nat → Char) (i : Nat) :
    updateAll content ((text.zipIdx k).map fun entry => (entry.2, entry.1)) i =
      if k ≤ i ∧ i < k + text.length then text.getD (i - k) (Char.ofNat 0) else content i := by
  induction text generalizing k content with
  | nil =>
      rw [if_neg (by simp)]
      rfl
  | cons c rest ih =>
      have shape : updateAll content (((c :: rest).zipIdx k).map fun entry => (entry.2, entry.1)) =
          updateAll (Function.update content k c)
            ((rest.zipIdx (k + 1)).map fun entry => (entry.2, entry.1)) := rfl
      rw [shape, ih, List.length_cons]
      by_cases first : i = k
      · subst first
        rw [if_neg (by omega), if_pos (by omega), Function.update_self, Nat.sub_self]
        rfl
      · rw [Function.update_of_ne first]
        by_cases inside : k + 1 ≤ i ∧ i < k + 1 + rest.length
        · rw [if_pos inside, if_pos (by omega), show i - k = i - (k + 1) + 1 by omega, List.getD_cons_succ]
        · rw [if_neg inside, if_neg (by omega)]

def overwritten (content text : List Char) : List Char :=
  text.take content.length ++ content.drop text.length

theorem overwritten_length (content text : List Char) :
    (overwritten content text).length = content.length := by
  rw [overwritten, List.length_append, List.length_take, List.length_drop]
  omega

theorem overwritten_getD (content text : List Char) (i : Nat) (inside : i < content.length) :
    (overwritten content text).getD i (Char.ofNat 0) =
      if i < text.length then text.getD i (Char.ofNat 0) else content.getD i (Char.ofNat 0) := by
  have front : (text.take content.length).length = min content.length text.length := List.length_take
  rw [overwritten]
  by_cases early : i < text.length
  · rw [if_pos early, List.getD_append _ _ _ _ (by omega), List.getD_eq_getElem _ _ (by omega),
      List.getD_eq_getElem _ _ early, List.getElem_take]
  · rw [if_neg early, List.getD_append_right _ _ _ _ (by omega), List.getD_eq_getElem _ _ inside,
      List.getD_eq_getElem _ _ (by rw [List.length_drop]; omega), List.getElem_drop]
    congr 1
    omega

theorem fileMmap_eq (message : List Char) : fileMmap message =
    if message = [] then .mmapFails
    else if message.length < bufSize then
      .shown [message, printed ('H' :: message.tail), printed message]
    else .outside := by
  cases message with
  | nil => rfl
  | cons c rest =>
      have changed : (Mapping.write page (onDisk (c :: rest)) 0 'H'
          (.mapPrivate () fun _ => none)).2.read page (onDisk (c :: rest)) =
          Function.update (onDisk (c :: rest) ()) 0 'H' :=
        read_write page _ (.mapPrivate () fun _ => none) 0 'H'
      have text : cells (c :: rest).length (Function.update (onDisk (c :: rest) ()) 0 'H') = 'H' :: rest := by
        refine (cells_text ('H' :: rest) _ (c :: rest).length (Nat.le_refl _) ?_).trans
          (List.take_of_length_le (Nat.le_refl _))
        intro i below
        cases i with
        | zero => rfl
        | succ i => exact Function.update_of_ne (Nat.succ_ne_zero i) _ _
      have whole := cells_onDisk (c :: rest) (c :: rest).length (Nat.le_refl _)
      rw [List.take_length] at whole
      have fits : (readDisk (onDisk (c :: rest)) (c :: rest).length).length < bufSize ↔
          (c :: rest).length < bufSize := by
        rw [readDisk, cells_length]
        omega
      -- the store leaves the disk as it is
      have shape : fileMmap (c :: rest) =
          if (readDisk (onDisk (c :: rest)) (c :: rest).length).length < bufSize then
            .shown [cells (c :: rest).length (onDisk (c :: rest) ()),
              printed (cells (c :: rest).length ((Mapping.write page (onDisk (c :: rest)) 0 'H'
                (.mapPrivate () fun _ => none)).2.read page (onDisk (c :: rest)))),
              printed (readDisk (onDisk (c :: rest)) (c :: rest).length)]
          else .outside := rfl
      rw [shape, changed, text, whole, if_neg (List.cons_ne_nil c rest)]
      by_cases short : (c :: rest).length < bufSize
      · rw [if_pos short, if_pos (fits.mpr short), readDisk, Nat.min_eq_left (Nat.le_of_lt short), whole]
        rfl
      · rw [if_neg short, if_neg (mt fits.mp short)]

theorem fileShareWrite_eq (content text : List Char) : fileShareWrite content text =
    if content = [] then .mmapFails
    else if 4096 * ((content.length + 4095) / 4096) < text.length then .outside
    else .shown [content, printed ((overwritten content text).take bufSize)] := by
  by_cases empty : content = []
  · rw [if_pos empty, empty]
    rfl
  · have some : content.length ≠ 0 := fun none => empty (List.length_eq_zero_iff.mp none)
    rw [if_neg empty, fileShareWrite]
    simp only [if_neg some]
    by_cases beyond : 4096 * ((content.length + 4095) / 4096) < text.length
    · rw [if_pos beyond, if_pos beyond]
    · have written := shared_writeAll page (onDisk content) () (storesOf text)
      have disk : readDisk
          ((Mapping.writeAll page (onDisk content) (.mapShared ()) (storesOf text)).1) content.length =
          (overwritten content text).take bufSize := by
        rw [readDisk, written, cells_text (overwritten content text), Nat.min_comm, ← List.take_take,
          ← overwritten_length content text, List.take_length]
        · rw [overwritten_length]
          exact Nat.min_le_left _ _
        · intro i below
          rw [overwritten_getD _ _ _ (Nat.lt_of_lt_of_le below (Nat.min_le_left _ _))]
          have stored := updateAll_stores text 0 (onDisk content ()) i
          simp only [Nat.zero_le, Nat.zero_add, true_and, Nat.sub_zero] at stored
          exact stored
      have before := cells_onDisk content content.length (Nat.le_refl _)
      rw [List.take_length] at before
      rw [if_neg beyond, if_neg beyond, disk]
      exact congrArg (fun text => Outcome.shown [text, _]) before

/-- Whatever is in the files: a store through the private mapping is seen there and not
on the disk, stores through the shared one are on the disk. With 64 bytes or more the
first program writes behind its buffer. -/
theorem files_after : (∀ message, fileMmap message =
      if message = [] then .mmapFails
      else if message.length < bufSize then
        .shown [message, printed ('H' :: message.tail), printed message]
      else .outside) ∧
    ∀ content text, fileShareWrite content text =
      if content = [] then .mmapFails
      else if 4096 * ((content.length + 4095) / 4096) < text.length then .outside
      else .shown [content, printed ((overwritten content text).take bufSize)] :=
  ⟨fileMmap_eq, fileShareWrite_eq⟩

example : fileShareWrite "AAAAAAAAAAAAAAAA".toList "BBBBBBBB".toList =
    .shown ["AAAAAAAAAAAAAAAA".toList, "BBBBBBBBAAAAAAAA".toList] := by decide +kernel

end LinuxMemory.FileMapping
