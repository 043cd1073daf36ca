import LinuxMemory.ByteMemory
import Mathlib.Data.List.Basic

/-!
What the kernel leaves on the stack of a new process, and the program `02_environ.c`,
which walks it: `argc`, the pointers to the arguments, those to the environment and the
auxiliary vector, each of the last three up to a null word. The four values that the
program prints through `getauxval` at its end are left out.
-/

namespace LinuxMemory.InitialStack

open ByteMemory

abbrev Text := Nat × List UInt8

structure Image where
  args : List Text
  env : List Text
  aux : List (Nat × Nat)
  pointers : ∀ text ∈ args ++ env, text.1 ≠ 0 ∧ ∀ byte ∈ text.2, byte ≠ 0
  typed : ∀ entry ∈ aux, entry.1 ≠ 0

/-- The words from the stack pointer on. `AT_NULL` has a value of no meaning. -/
def Image.words (image : Image) (last : Nat) : List Nat :=
  image.args.length :: (image.args.map Prod.fst ++ 0 :: (image.env.map Prod.fst ++ 0 ::
    (image.aux.flatMap (fun entry => [entry.1, entry.2]) ++ [0, last])))

def HoldsWords (memory : Memory) (address : Nat) (words : List Nat) : Prop :=
  ∀ index word, words[index]? = some word → loadWord memory (address + 8 * index) = word

def HoldsString (memory : Memory) (text : Text) : Prop :=
  ∀ index byte, (text.2 ++ [0])[index]? = some byte → memory (text.1 + index) = byte

/-- What the kernel made of an image: the words, and the strings anywhere. -/
structure Laid (memory : Memory) (sp : Nat) (image : Image) : Prop where
  words : ∃ last, HoldsWords memory sp (image.words last)
  strings : ∀ text ∈ image.args ++ image.env, HoldsString memory text

/-! The program. Its loops end at a null byte or word; `none` is out of fuel. -/

def readString (memory : Memory) : Nat → Nat → Option (List UInt8)
  | 0, _ => none
  | fuel + 1, address =>
      if memory address = 0 then some []
      else (readString memory fuel (address + 1)).map (memory address :: ·)

def readArgs (memory : Memory) (fuel : Nat) : Nat → Nat → Option (List Text)
  | 0, _ => some []
  | count + 1, argv => do
      let pointer := loadWord memory argv
      let text ← readString memory fuel pointer
      return (pointer, text) :: (← readArgs memory fuel count (argv + 8))

/-- An entry as it is printed: its pointer, at most 80 bytes, and `...` behind them or not. -/
structure Shown where
  pointer : Nat
  bytes : List UInt8
  cut : Bool
  deriving DecidableEq

def shown (text : Text) : Shown := ⟨text.1, text.2.take 80, 80 < text.2.length⟩

def readEnviron (memory : Memory) : Nat → Nat → Nat → Option (List Shown × Nat)
  | 0, _, _ => none
  | fuel + 1, e, n =>
      let pointer := loadWord memory e
      if pointer = 0 then some ([], n)
      else if n < 10 then do
        let text ← readString memory (fuel + 1) pointer
        let rest ← readEnviron memory fuel (e + 8) (n + 1)
        return (shown (pointer, text) :: rest.1, rest.2)
      else readEnviron memory fuel (e + 8) (n + 1)

/-- `while (*after_env) ++after_env; ++after_env;`. -/
def afterEnv (memory : Memory) : Nat → Nat → Option Nat
  | 0, _ => none
  | fuel + 1, address =>
      if loadWord memory address = 0 then some (address + 8) else afterEnv memory fuel (address + 8)

def auxvName : Nat → String
  | 0 => "AT_NULL"
  | 3 => "AT_PHDR"
  | 4 => "AT_PHENT"
  | 5 => "AT_PHNUM"
  | 6 => "AT_PAGESZ"
  | 7 => "AT_BASE"
  | 8 => "AT_FLAGS"
  | 9 => "AT_ENTRY"
  | 11 => "AT_UID"
  | 12 => "AT_EUID"
  | 13 => "AT_GID"
  | 14 => "AT_EGID"
  | 15 => "AT_PLATFORM"
  | 16 => "AT_HWCAP"
  | 17 => "AT_CLKTCK"
  | 23 => "AT_SECURE"
  | 25 => "AT_RANDOM"
  | 31 => "AT_EXECFN"
  | 33 => "AT_SYSINFO_EHDR (vDSO)"
  | _ => "AT_?"

def readAuxv (memory : Memory) : Nat → Nat → Option (List (String × Nat × Nat))
  | 0, _ => none
  | fuel + 1, auxv =>
      let type := loadWord memory auxv
      if type = 0 then some []
      else (readAuxv memory fuel (auxv + 16)).map ((auxvName type, type, loadWord memory (auxv + 8)) :: ·)

structure Report where
  argc : Nat
  args : List Text
  environ : List Shown
  total : Nat
  auxv : List (String × Nat × Nat)
  deriving DecidableEq

def main (memory : Memory) (fuel argc argv environ : Nat) : Option Report := do
  let args ← readArgs memory fuel argc argv
  let entries ← readEnviron memory fuel environ 0
  let auxv ← readAuxv memory fuel (← afterEnv memory fuel environ)
  return ⟨argc, args, entries.1, entries.2, auxv⟩

/-- `_start` finds the arguments of `main` above the stack pointer. -/
def start (memory : Memory) (fuel sp : Nat) : Option Report :=
  let argc := loadWord memory sp
  main memory fuel argc (sp + 8) (sp + 8 + 8 * (argc + 1))

def Image.report (image : Image) : Report where
  argc := image.args.length
  args := image.args
  environ := (image.env.take 10).map shown
  total := image.env.length
  auxv := image.aux.map fun entry => (auxvName entry.1, entry.1, entry.2)

/-! The parts of the stack. -/

section Words
variable {memory : Memory} {address : Nat}

theorem holds_cons {word : Nat} {words : List Nat} (holds : HoldsWords memory address (word :: words)) :
    loadWord memory address = word ∧ HoldsWords memory (address + 8) words := by
  constructor
  · exact holds 0 word rfl
  · intro index other found
    have moved := holds (index + 1) other found
    rwa [show address + 8 * (index + 1) = address + 8 + 8 * index by omega] at moved

theorem holds_append {front back : List Nat} (holds : HoldsWords memory address (front ++ back)) :
    HoldsWords memory (address + 8 * front.length) back := by
  intro index word found
  have moved := holds (front.length + index) word (by
    rw [List.getElem?_append_right (Nat.le_add_right ..), Nat.add_sub_cancel_left, found])
  rwa [show address + 8 * (front.length + index) = address + 8 * front.length + 8 * index by omega] at moved

end Words

theorem readString_reads (memory : Memory) (fuel pointer : Nat) (bytes : List UInt8)
    (holds : HoldsString memory (pointer, bytes)) (plain : ∀ byte ∈ bytes, byte ≠ 0)
    (enough : bytes.length < fuel) : readString memory fuel pointer = some bytes := by
  induction bytes generalizing fuel pointer with
  | nil =>
      obtain ⟨fuel, rfl⟩ := Nat.exists_eq_succ_of_ne_zero (Nat.ne_of_gt enough)
      have null : memory pointer = 0 := holds 0 0 rfl
      exact if_pos null
  | cons byte bytes ih =>
      obtain ⟨fuel, rfl⟩ := Nat.exists_eq_succ_of_ne_zero (Nat.ne_of_gt (Nat.zero_lt_of_lt enough))
      rw [List.forall_mem_cons] at plain
      have first : memory pointer = byte := holds 0 byte rfl
      have rest := ih fuel (pointer + 1) (by
        intro index other found
        have moved := holds (index + 1) other found
        rwa [show pointer + (index + 1) = pointer + 1 + index by omega] at moved)
        plain.2 (Nat.lt_of_succ_lt_succ enough)
      rw [readString, first, if_neg plain.1, rest]
      rfl

def size (texts : List Text) : Nat := texts.length + (texts.map fun text => text.2.length).sum

section Reads
variable {memory : Memory} {fuel address : Nat} {texts : List Text} {rest : List Nat}

theorem size_cons (text : Text) (texts : List Text) :
    size (text :: texts) = size texts + text.2.length + 1 := by
  simp only [size, List.length_cons, List.map_cons, List.sum_cons]
  omega

theorem readArgs_reads (holds : HoldsWords memory address (texts.map Prod.fst ++ rest))
    (strings : ∀ text ∈ texts, HoldsString memory text)
    (plain : ∀ text ∈ texts, ∀ byte ∈ text.2, byte ≠ 0) (enough : size texts < fuel) :
    readArgs memory fuel texts.length address = some texts := by
  induction texts generalizing address with
  | nil => rfl
  | cons text texts ih =>
      rw [size_cons] at enough
      rw [List.forall_mem_cons] at strings plain
      obtain ⟨pointer, later⟩ := holds_cons holds
      have string := readString_reads memory fuel text.1 text.2 strings.1 plain.1 (by omega)
      have others := ih later strings.2 plain.2 (by omega)
      simp only [List.length_cons, readArgs, pointer, string, others, bind, Option.bind, pure]

theorem readEnviron_reads (n : Nat) (holds : HoldsWords memory address (texts.map Prod.fst ++ 0 :: rest))
    (strings : ∀ text ∈ texts, HoldsString memory text)
    (plain : ∀ text ∈ texts, text.1 ≠ 0 ∧ ∀ byte ∈ text.2, byte ≠ 0) (enough : size texts < fuel) :
    readEnviron memory fuel address n = some ((texts.take (10 - n)).map shown, n + texts.length) := by
  induction texts generalizing fuel address n with
  | nil =>
      obtain ⟨fuel, rfl⟩ := Nat.exists_eq_succ_of_ne_zero (Nat.ne_of_gt (Nat.zero_lt_of_lt enough))
      have null : loadWord memory address = 0 := (holds_cons holds).1
      simp [readEnviron, null]
  | cons text texts ih =>
      obtain ⟨fuel, rfl⟩ := Nat.exists_eq_succ_of_ne_zero (Nat.ne_of_gt (Nat.zero_lt_of_lt enough))
      rw [size_cons] at enough
      rw [List.forall_mem_cons] at strings plain
      obtain ⟨pointer, later⟩ := holds_cons holds
      have string := readString_reads memory (fuel + 1) text.1 text.2 strings.1 plain.1.2 (by omega)
      have others := ih (n + 1) later strings.2 plain.2 (show size texts < fuel by omega)
      have total : n + 1 + texts.length = n + (texts.length + 1) := by omega
      rw [readEnviron, pointer, if_neg plain.1.1]
      by_cases printed : n < 10
      · have left : 10 - n = 10 - (n + 1) + 1 := by omega
        rw [if_pos printed, string, others, left, List.take_succ_cons, List.length_cons, total]
        rfl
      · have none : 10 - n = 0 ∧ 10 - (n + 1) = 0 := by omega
        rw [if_neg printed, others, none.1, none.2, List.length_cons, total]
        rfl

theorem afterEnv_passes (holds : HoldsWords memory address (texts.map Prod.fst ++ 0 :: rest))
    (pointers : ∀ text ∈ texts, text.1 ≠ 0) (enough : texts.length < fuel) :
    afterEnv memory fuel address = some (address + 8 * (texts.length + 1)) := by
  induction texts generalizing fuel address with
  | nil =>
      obtain ⟨fuel, rfl⟩ := Nat.exists_eq_succ_of_ne_zero (Nat.ne_of_gt enough)
      exact if_pos (holds_cons holds).1
  | cons text texts ih =>
      obtain ⟨fuel, rfl⟩ := Nat.exists_eq_succ_of_ne_zero (Nat.ne_of_gt (Nat.zero_lt_of_lt enough))
      rw [List.forall_mem_cons] at pointers
      obtain ⟨pointer, later⟩ := holds_cons holds
      rw [List.length_cons] at enough
      have total : address + 8 + 8 * (texts.length + 1) = address + 8 * (texts.length + 1 + 1) := by omega
      rw [afterEnv, pointer, if_neg pointers.1, ih later pointers.2 (by omega), List.length_cons, total]

theorem readAuxv_reads (aux : List (Nat × Nat)) (last : Nat)
    (holds : HoldsWords memory address (aux.flatMap (fun entry => [entry.1, entry.2]) ++ [0, last]))
    (typed : ∀ entry ∈ aux, entry.1 ≠ 0) (enough : aux.length < fuel) :
    readAuxv memory fuel address = some (aux.map fun entry => (auxvName entry.1, entry.1, entry.2)) := by
  induction aux generalizing fuel address with
  | nil =>
      obtain ⟨fuel, rfl⟩ := Nat.exists_eq_succ_of_ne_zero (Nat.ne_of_gt enough)
      have words : HoldsWords memory address (0 :: [last]) := holds
      have null : loadWord memory address = 0 := (holds_cons words).1
      rw [readAuxv, null, if_pos rfl]
      rfl
  | cons entry aux ih =>
      obtain ⟨fuel, rfl⟩ := Nat.exists_eq_succ_of_ne_zero (Nat.ne_of_gt (Nat.zero_lt_of_lt enough))
      rw [List.forall_mem_cons] at typed
      rw [List.flatMap_cons, List.append_assoc] at holds
      obtain ⟨type, more⟩ := holds_cons holds
      obtain ⟨value, later⟩ := holds_cons more
      have others := ih later typed.2 (Nat.lt_of_succ_lt_succ enough)
      rw [readAuxv, type, if_neg typed.1, value, others]
      rfl

end Reads

/-- For every process, enough fuel being a bound that its image gives: the walk ends and
finds the arguments, the environment and the auxiliary vector as the kernel laid them. -/
theorem stack_reported (image : Image) (memory : Memory) (sp fuel : Nat) (laid : Laid memory sp image)
    (enough : size image.args + size image.env + image.aux.length < fuel) :
    start memory fuel sp = some image.report := by
  obtain ⟨⟨last, words⟩, strings⟩ := laid
  obtain ⟨argc, argv⟩ := holds_cons words
  have behind := holds_append argv
  rw [List.length_map] at behind
  obtain ⟨_, environ⟩ := holds_cons behind
  have beyond := holds_append environ
  rw [List.length_map] at beyond
  obtain ⟨_, auxv⟩ := holds_cons beyond
  have pointers := List.forall_mem_append.mp image.pointers
  have held := List.forall_mem_append.mp strings
  have counted (texts : List Text) : texts.length ≤ size texts := Nat.le_add_right ..
  have length := counted image.env
  have args := readArgs_reads argv held.1 (fun text member => (pointers.1 text member).2)
    (show size image.args < fuel by omega)
  have entries := readEnviron_reads 0 environ held.2 pointers.2 (show size image.env < fuel by omega)
  have passed := afterEnv_passes environ (fun text member => (pointers.2 text member).1)
    (show image.env.length < fuel by omega)
  have read := readAuxv_reads image.aux last auxv image.typed (show image.aux.length < fuel by omega)
  have place : sp + 8 + 8 * image.args.length + 8 = sp + 8 + 8 * (image.args.length + 1) := by omega
  have above : sp + 8 + 8 * image.args.length + 8 + 8 * image.env.length + 8 =
      sp + 8 + 8 * (image.args.length + 1) + 8 * (image.env.length + 1) := by omega
  rw [above] at read
  rw [place] at entries passed
  simp only [start, main, argc, args, entries, passed, read, bind, Option.bind, pure, Image.report,
    Nat.sub_zero, Nat.zero_add]

/-- One argument, the page size, and more strings in the environment than are printed. -/
def elevenStrings : Image where
  args := [(0x1098, [46, 47, 101])]
  env := (List.range 11).map fun i => (0x109c + 4 * i, [UInt8.ofNat (65 + i), 61, 49])
  aux := [(6, 4096)]
  pointers := by decide +kernel
  typed := by decide

def strings : List UInt8 := (elevenStrings.args ++ elevenStrings.env).flatMap fun text => text.2 ++ [0]

def laidOut : Memory := fun address =>
  if address < 0x1098 then
    UInt8.ofNat ((elevenStrings.words 0).getD ((address - 0x1000) / 8) 0 / 256 ^ ((address - 0x1000) % 8))
  else strings.getD (address - 0x1098) 0

theorem stack_reported_page : start laidOut 50 0x1000 = some elevenStrings.report ∧
    elevenStrings.report.environ.length = 10 ∧ elevenStrings.report.total = 11 := by
  refine ⟨stack_reported elevenStrings laidOut 0x1000 50 ⟨⟨0, ?_⟩, ?_⟩ (by decide +kernel),
    by decide +kernel, by decide +kernel⟩
  · have checked : ∀ index : Fin 19,
        loadWord laidOut (0x1000 + 8 * index) = (elevenStrings.words 0).getD index 0 := by decide +kernel
    intro index word found
    obtain ⟨below, rfl⟩ := List.getElem?_eq_some_iff.mp found
    have here := checked ⟨index, below⟩
    rwa [List.getD_eq_getElem _ _ below] at here
  · have checked : ∀ text ∈ elevenStrings.args ++ elevenStrings.env, ∀ index : Fin 4,
        laidOut (text.1 + index) = (text.2 ++ [0]).getD index 0 := by decide +kernel
    have lengths : ∀ text ∈ elevenStrings.args ++ elevenStrings.env, (text.2 ++ [0]).length = 4 := by
      decide +kernel
    intro text member index byte found
    obtain ⟨below, rfl⟩ := List.getElem?_eq_some_iff.mp found
    have here := checked text member ⟨index, by rw [← lengths text member]; exact below⟩
    rwa [List.getD_eq_getElem _ _ below] at here

end LinuxMemory.InitialStack
