import LinuxMemory.Decimal

/-!
`read_int` and `write_int` of `04_oom_score.c`. The kernel keeps a number behind
`/proc/self/oom_score_adj`, the program passes texts to it. In every sequence of calls
the two functions behave as a read and a write of the number itself.
-/

namespace LinuxMemory.OomScore

open Scanf Decimal

/-- The adjustment, and the lowest one that a process without the privilege may set. -/
structure Adjustment where
  value : Int
  least : Int
  privileged : Bool
  ranged : -1000 ≤ value ∧ value ≤ 1000

/-- The kernel's side of a write, once it has made a number of the text. -/
def Adjustment.set (a : Adjustment) (v : Int) : Option Adjustment :=
  if range : -1000 ≤ v ∧ v ≤ 1000 then
    if a.privileged then some ⟨v, v, true, range⟩
    else if a.least ≤ v then some ⟨v, a.least, false, range⟩
    else none
  else none

def Adjustment.text (a : Adjustment) : List Char := decimal a.value ++ ['\n']

/-! The program. A file that cannot be opened is `none`. -/

def readInt (file : Option (List Char)) : Int :=
  match file with
  | none => -1
  | some text =>
      match sscanf [.signed] text with
      | [.signed v] => v.bmod (2 ^ 32)
      | _ => -1

def bufSize : Nat := 16

def printed (v : Int) : List Char := (decimal v).take (bufSize - 1) ++ [Char.ofNat 0]

section Calls
variable (parse : List Char → Option Int)

/-- `none` where `write` is told to read behind the buffer. -/
def writeInt (opens : Bool) (v : Int) (a : Adjustment) : Option (Int × Adjustment) :=
  if opens then
    let n := (decimal v).length
    if bufSize < n then none
    else
      match parse ((printed v).take n) >>= a.set with
      | some b => some (0, b)
      | none => some (-1, a)
  else some (-1, a)

inductive Call where
  | readInt (opens : Bool)
  | writeInt (opens : Bool) (v : Int)

def perform (a : Adjustment) : Call → Option (Int × Adjustment)
  | .readInt opens => some (readInt (if opens then some a.text else none), a)
  | .writeInt opens v => writeInt parse opens v a

def performAll : List Call → Adjustment → Option (List Int × Adjustment)
  | [], a => some ([], a)
  | call :: rest, a => do
      let (result, b) ← perform parse a call
      let (results, last) ← performAll rest b
      pure (result :: results, last)

end Calls

/-! The same calls on the number, without a text in between. -/

def onNumber (a : Adjustment) : Call → Int × Adjustment
  | .readInt opens => (if opens then a.value else -1, a)
  | .writeInt opens v =>
      match if opens then a.set v else none with
      | some b => (0, b)
      | none => (-1, a)

def onNumbers : List Call → Adjustment → List Int × Adjustment
  | [], a => ([], a)
  | call :: rest, a => ((onNumber a call).1 :: (onNumbers rest (onNumber a call).2).1,
      (onNumbers rest (onNumber a call).2).2)

def Call.Typed : Call → Prop
  | .readInt _ => True
  | .writeInt _ v => -2 ^ 31 ≤ v ∧ v < 2 ^ 31

theorem readInt_text (a : Adjustment) : readInt (some a.text) = a.value := by
  have range := a.ranged
  have read := decimal_read a.value [] ['\n'] (behind_cons (by decide) (by decide) (by decide))
    (by omega) (by omega)
  rw [readInt, Adjustment.text, read]
  exact Int.bmod_eq_of_le (by omega) (by omega)

/-- The text of an `int` fits the buffer, so that `write` passes it whole. -/
theorem printed_whole (v : Int) (low : -2 ^ 31 ≤ v) (high : v < 2 ^ 31) :
    ¬ bufSize < (decimal v).length ∧ (printed v).take (decimal v).length = decimal v := by
  have length : (decimal v).length ≤ 11 := decimal_length v 10 (by decide) (by omega)
  refine ⟨by rw [bufSize]; omega, ?_⟩
  have shown : (decimal v).take (bufSize - 1) = decimal v :=
    List.take_of_length_le (Nat.le_trans length (by decide))
  rw [printed, shown, List.take_left]

section Transparent
variable {parse : List Char → Option Int}
  (parses : ∀ v : Int, -2 ^ 31 ≤ v → v < 2 ^ 31 → parse (decimal v) = some v)
include parses

theorem perform_number (a : Adjustment) (call : Call) (typed : call.Typed) :
    perform parse a call = some (onNumber a call) := by
  cases call with
  | readInt opens =>
      cases opens with
      | false => rfl
      | true => exact congrArg (fun v => some (v, a)) (readInt_text a)
  | writeInt opens v =>
      cases opens with
      | false => rfl
      | true =>
          obtain ⟨low, high⟩ := typed
          obtain ⟨fits, whole⟩ := printed_whole v low high
          simp only [perform, writeInt, if_true, if_neg fits, whole, parses v low high, onNumber, bind,
            Option.bind]
          cases a.set v <;> rfl

/-- The kernel being one that reads a decimal number as what it is: all calls succeed or
fail, and return, as they would on the number, and none reads behind the buffer. -/
theorem text_transparent (a : Adjustment) (calls : List Call) (typed : ∀ call ∈ calls, call.Typed) :
    performAll parse calls a = some (onNumbers calls a) := by
  induction calls generalizing a with
  | nil => rfl
  | cons call rest ih =>
      rw [List.forall_mem_cons] at typed
      simp only [performAll, perform_number parses a call typed.1, ih _ typed.2, bind, Option.bind, pure,
        onNumbers]

end Transparent

def kernelParse (text : List Char) : Option Int :=
  match sscanf [.signed] text with
  | [.signed v] => some v
  | _ => none

theorem kernelParse_reads (v : Int) (low : -2 ^ 31 ≤ v) (high : v < 2 ^ 31) :
    kernelParse (decimal v) = some v := by
  have read := decimal_read v [] [] (by intro c head; cases head) (by omega) (by omega)
  rw [List.append_nil] at read
  rw [kernelParse, read]
  rfl

/-- The three accesses of `main` to the adjustment. -/
def accesses : List Call := [.readInt true, .writeInt true (-500), .readInt true]

/-- Without the privilege and with it. -/
theorem text_transparent_main :
    performAll kernelParse accesses ⟨0, 0, false, by decide⟩ =
      some ([0, -1, 0], ⟨0, 0, false, by decide⟩) ∧
    performAll kernelParse accesses ⟨0, 0, true, by decide⟩ =
      some ([0, 0, -500], ⟨-500, -500, true, by decide⟩) := by
  have typed : ∀ call ∈ accesses, call.Typed := by simp [accesses, Call.Typed]
  exact ⟨text_transparent kernelParse_reads _ accesses typed,
    text_transparent kernelParse_reads _ accesses typed⟩

end LinuxMemory.OomScore
