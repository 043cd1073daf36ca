import LinuxMemory.ByteMemory
import LinuxMemory.Word
import Mathlib.Logic.Function.Basic

/-!
A machine that runs code from its own memory: the registers, instructions `mov` and
`add` between them and `ret` of x86-64, in their encodings, over pages with a
protection. The arithmetic flags are left out and other encodings are undefined. Code
written as instructions is decoded and run as what it was assembled from.
-/

namespace LinuxMemory.MachineCode

open ByteMemory Word

/-- By the number that encodings give them: 0 is `rax`, 4 is `rsp`. -/
abbrev Register := Fin 16

def rax : Register := 0
def rsp : Register := 4
def rsi : Register := 6
def rdi : Register := 7

abbrev Registers := Register → Nat

inductive Opcode where
  | mov | add
  deriving DecidableEq

structure Operation where
  opcode : Opcode
  target : Register
  source : Register
  deriving DecidableEq

inductive Instruction where
  | operation (operation : Operation)
  | ret
  deriving DecidableEq

structure Protection where
  read : Bool
  write : Bool
  execute : Bool
  deriving DecidableEq

inductive Fault where
  | fetch (address : Nat)
  | read (address : Nat)
  | write (address : Nat)
  | undefined (address : Nat)
  deriving DecidableEq

structure Machine where
  registers : Registers
  rip : Nat
  memory : Memory
  protection : Nat → Protection

/-! Encoding: a `REX.W` byte with the high bits of both registers, the opcode, and a
`ModRM` byte in register form with their low bits. -/

def Opcode.byte : Opcode → UInt8
  | .mov => 0x89
  | .add => 0x01

def Operation.encode (operation : Operation) : List UInt8 :=
  [UInt8.ofNat (0x48 + 4 * (operation.source / 8) + operation.target / 8), operation.opcode.byte,
    UInt8.ofNat (0xc0 + 8 * (operation.source % 8) + operation.target % 8)]

def assemble (code : List Operation) : List UInt8 := code.flatMap Operation.encode

def retByte : UInt8 := 0xc3

def decodeOpcode (byte : UInt8) : Option Opcode :=
  if byte = 0x89 then some .mov else if byte = 0x01 then some .add else none

def decode (rex opcode modrm : UInt8) : Option Operation :=
  if rex.toNat / 8 = 9 ∧ modrm.toNat / 64 = 3 then
    (decodeOpcode opcode).map fun opcode =>
      ⟨opcode, ⟨8 * (rex.toNat % 2) + modrm.toNat % 8, by omega⟩,
        ⟨8 * (rex.toNat / 4 % 2) + modrm.toNat / 8 % 8, by omega⟩⟩
  else none

theorem decode_encode (operation : Operation) :
    ∃ rex modrm, operation.encode = [rex, operation.opcode.byte, modrm] ∧ rex ≠ retByte ∧
      decode rex operation.opcode.byte modrm = some operation := by
  obtain ⟨opcode, target, source⟩ := operation
  refine ⟨_, _, rfl, ?_, ?_⟩
  · intro same
    have value := congrArg UInt8.toNat same
    rw [UInt8.toNat_ofNat_of_lt' (by simp only [UInt8.size]; omega)] at value
    have : retByte.toNat = 195 := rfl
    omega
  · have rex : (UInt8.ofNat (0x48 + 4 * (source.val / 8) + target.val / 8)).toNat =
        0x48 + 4 * (source.val / 8) + target.val / 8 :=
      UInt8.toNat_ofNat_of_lt' (by simp only [UInt8.size]; omega)
    have modrm : (UInt8.ofNat (0xc0 + 8 * (source.val % 8) + target.val % 8)).toNat =
        0xc0 + 8 * (source.val % 8) + target.val % 8 :=
      UInt8.toNat_ofNat_of_lt' (by simp only [UInt8.size]; omega)
    have known : decodeOpcode opcode.byte = some opcode := by cases opcode <;> decide
    simp only [decode, rex, modrm, known, Option.map_some]
    rw [if_pos (by omega)]
    simp only [Option.some.injEq, Operation.mk.injEq, true_and, Fin.ext_iff]
    omega

/-! Execution. -/

def page (address : Nat) : Nat := address / 4096

def Machine.fetch (machine : Machine) (address : Nat) : Except Fault UInt8 :=
  if (machine.protection (page address)).execute then .ok (machine.memory address)
  else .error (.fetch address)

/-- The bytes past a `ret` are not fetched. -/
def Machine.fetchInstruction (machine : Machine) (address : Nat) : Except Fault Instruction := do
  let rex ← machine.fetch address
  if rex = retByte then return .ret
  let opcode ← machine.fetch (address + 1)
  let modrm ← machine.fetch (address + 2)
  match decode rex opcode modrm with
  | some operation => return .operation operation
  | none => throw (.undefined address)

def Operation.apply (registers : Registers) (operation : Operation) : Registers :=
  Function.update registers operation.target <| match operation.opcode with
    | .mov => registers operation.source
    | .add => add (registers operation.target) (registers operation.source)

/-- A word may lie across two pages. -/
def Machine.readable (machine : Machine) (address : Nat) : Bool :=
  (machine.protection (page address)).read && (machine.protection (page (address + 7))).read

def Machine.writable (machine : Machine) (address : Nat) : Bool :=
  (machine.protection (page address)).write && (machine.protection (page (address + 7))).write

def Machine.execute (machine : Machine) : Instruction → Except Fault Machine
  | .operation operation => .ok { machine with
      registers := operation.apply machine.registers, rip := add machine.rip 3 }
  | .ret =>
      let top := machine.registers rsp
      if machine.readable top then
        .ok { machine with
          registers := Function.update machine.registers rsp (add top 8)
          rip := loadWord machine.memory top }
      else .error (.read top)

def Machine.step (machine : Machine) : Except Fault Machine := do
  machine.execute (← machine.fetchInstruction machine.rip)

def run : Nat → Machine → Except Fault Machine
  | 0, machine => .ok machine
  | steps + 1, machine => machine.step >>= run steps

def Machine.entered (machine : Machine) (target back : Nat) : Machine :=
  let slot := sub (machine.registers rsp) 8
  { machine with
    registers := Function.update machine.registers rsp slot
    rip := target
    memory := storeWord machine.memory slot back }

def Machine.call (machine : Machine) (target back : Nat) : Except Fault Machine :=
  let slot := sub (machine.registers rsp) 8
  if machine.writable slot then .ok (machine.entered target back) else .error (.write slot)

def Machine.storeByte (machine : Machine) (address : Nat) (byte : UInt8) : Except Fault Machine :=
  if (machine.protection (page address)).write then
    .ok { machine with memory := poke machine.memory address byte }
  else .error (.write address)

/-! What assembled code does. -/

def Machine.Holds (machine : Machine) (address : Nat) (bytes : List UInt8) : Prop :=
  ∀ index byte, bytes[index]? = some byte → machine.fetch (address + index) = .ok byte

theorem Machine.holds_append (machine : Machine) (address : Nat) (left right : List UInt8)
    (holds : machine.Holds address (left ++ right)) :
    machine.Holds address left ∧ machine.Holds (address + left.length) right := by
  constructor
  · intro index byte found
    have below := (List.getElem?_eq_some_iff.mp found).1
    exact holds index byte (by rw [List.getElem?_append_left below, found])
  · intro index byte found
    have moved := holds (left.length + index) byte (by
      rw [List.getElem?_append_right (Nat.le_add_right ..), Nat.add_sub_cancel_left, found])
    rwa [← Nat.add_assoc] at moved

theorem Operation.encode_length (operation : Operation) : operation.encode.length = 3 := rfl

theorem step_operation (machine : Machine) (operation : Operation)
    (holds : machine.Holds machine.rip operation.encode) :
    machine.step = .ok { machine with
      registers := operation.apply machine.registers, rip := add machine.rip 3 } := by
  obtain ⟨rex, modrm, bytes, other, known⟩ := decode_encode operation
  rw [bytes] at holds
  have first : machine.fetch machine.rip = .ok rex := holds 0 rex rfl
  have second : machine.fetch (machine.rip + 1) = .ok operation.opcode.byte := holds 1 _ rfl
  have third : machine.fetch (machine.rip + 2) = .ok modrm := holds 2 modrm rfl
  simp only [Machine.step, Machine.fetchInstruction, first, second, third, bind, Except.bind, other,
    known]
  rfl

theorem step_ret (machine : Machine) (holds : machine.Holds machine.rip [retByte])
    (readable : machine.readable (machine.registers rsp) = true) :
    machine.step = .ok { machine with
      registers := Function.update machine.registers rsp (add (machine.registers rsp) 8)
      rip := loadWord machine.memory (machine.registers rsp) } := by
  have first : machine.fetch machine.rip = .ok retByte := holds 0 retByte rfl
  simp only [Machine.step, Machine.fetchInstruction, first, bind, Except.bind, if_pos]
  exact if_pos readable

theorem step_memory (machine next : Machine) (stepped : machine.step = .ok next) :
    next.memory = machine.memory ∧ next.protection = machine.protection := by
  unfold Machine.step at stepped
  cases fetched : machine.fetchInstruction machine.rip with
  | error fault => rw [fetched] at stepped; contradiction
  | ok instruction =>
      rw [fetched] at stepped
      change machine.execute instruction = .ok next at stepped
      cases instruction with
      | operation operation => cases stepped; exact ⟨rfl, rfl⟩
      | ret =>
          simp only [Machine.execute] at stepped
          split at stepped
          · cases stepped; exact ⟨rfl, rfl⟩
          · contradiction

/-- A list of operations runs from its first byte to past its last as the operations
one after another. -/
theorem run_assembled (code : List Operation) (machine : Machine)
    (holds : machine.Holds machine.rip (assemble code))
    (room : machine.rip + 3 * code.length < 2 ^ 64) :
    run code.length machine = .ok { machine with
      registers := code.foldl Operation.apply machine.registers
      rip := machine.rip + 3 * code.length } := by
  induction code generalizing machine with
  | nil => rfl
  | cons operation rest ih =>
      obtain ⟨front, tail⟩ := machine.holds_append _ operation.encode (assemble rest) holds
      rw [List.length_cons] at room
      have past : add machine.rip 3 = machine.rip + 3 := add_exact _ _ (by omega)
      rw [List.length_cons, run, step_operation machine operation front, past]
      refine (ih _ tail (by dsimp only; omega)).trans ?_
      have length : machine.rip + 3 + 3 * rest.length = machine.rip + 3 * (rest.length + 1) := by omega
      dsimp only
      rw [List.foldl_cons, length]

theorem run_add (first second : Nat) (machine : Machine) :
    run (first + second) machine = run first machine >>= run second := by
  induction first generalizing machine with
  | zero => rw [Nat.zero_add]; rfl
  | succ first ih =>
      rw [Nat.succ_add, run, run]
      cases machine.step with
      | error fault => rfl
      | ok next => exact ih next

theorem foldl_apply_other (code : List Operation) (registers : Registers) (register : Register)
    (kept : ∀ operation ∈ code, operation.target ≠ register) :
    code.foldl Operation.apply registers register = registers register := by
  induction code generalizing registers with
  | nil => rfl
  | cons operation rest ih =>
      rw [List.foldl_cons, ih _ fun other member => kept other (List.mem_cons_of_mem _ member)]
      exact Function.update_of_ne (kept operation List.mem_cons_self).symm _ _

theorem assemble_length (code : List Operation) : (assemble code).length = 3 * code.length := by
  induction code with
  | nil => rfl
  | cons operation rest ih =>
      have split : assemble (operation :: rest) = operation.encode ++ assemble rest := rfl
      rw [split, List.length_append, ih, operation.encode_length, List.length_cons]
      omega

theorem holds_entered (machine : Machine) (target back address : Nat) (bytes : List UInt8)
    (holds : machine.Holds address bytes)
    (apart : ∀ index < bytes.length, address + index < sub (machine.registers rsp) 8 ∨
      sub (machine.registers rsp) 8 + 8 ≤ address + index) :
    (machine.entered target back).Holds address bytes := by
  intro index byte found
  have clear := apart index (List.getElem?_eq_some_iff.mp found).1
  have same : (machine.entered target back).memory (address + index) =
      machine.memory (address + index) := store_outside _ _ _ _ _ clear
  have before := holds index byte found
  unfold Machine.fetch at before ⊢
  rw [same]
  exact before

theorem run_subroutine (code : List Operation) (machine : Machine)
    (holds : machine.Holds machine.rip (assemble code ++ [retByte]))
    (room : machine.rip + 3 * code.length < 2 ^ 64)
    (kept : ∀ operation ∈ code, operation.target ≠ rsp)
    (readable : machine.readable (machine.registers rsp) = true) :
    run (code.length + 1) machine = .ok { machine with
      registers := Function.update (code.foldl Operation.apply machine.registers) rsp
        (add (machine.registers rsp) 8)
      rip := loadWord machine.memory (machine.registers rsp) } := by
  obtain ⟨body, last⟩ := machine.holds_append _ _ _ holds
  rw [assemble_length] at last
  rw [run_add, run_assembled code machine body room]
  have top := foldl_apply_other code machine.registers rsp kept
  have returned := step_ret { machine with
    registers := code.foldl Operation.apply machine.registers
    rip := machine.rip + 3 * code.length } last (by dsimp only; rw [top]; exact readable)
  dsimp only at returned
  rw [top] at returned
  change run 1 _ = _
  rw [run, returned]
  rfl

/-- A called subroutine: its operations on the registers of the call, the stack pointer
where it was, and nothing written but the return address. -/
theorem call_returns (code : List Operation) (machine : Machine) (target back : Nat)
    (holds : machine.Holds target (assemble code ++ [retByte]))
    (room : target + 3 * code.length < 2 ^ 64)
    (kept : ∀ operation ∈ code, operation.target ≠ rsp)
    (stack : 8 ≤ machine.registers rsp) (top : machine.registers rsp < 2 ^ 64)
    (returns : back < 2 ^ 64)
    (writable : machine.writable (machine.registers rsp - 8) = true)
    (readable : machine.readable (machine.registers rsp - 8) = true)
    (apart : ∀ index < 3 * code.length + 1,
      target + index < machine.registers rsp - 8 ∨ machine.registers rsp ≤ target + index) :
    machine.call target back >>= run (code.length + 1) = .ok { machine with
      registers := Function.update
        (code.foldl Operation.apply
          (Function.update machine.registers rsp (machine.registers rsp - 8)))
        rsp (machine.registers rsp)
      rip := back
      memory := storeWord machine.memory (machine.registers rsp - 8) back } := by
  have slot : sub (machine.registers rsp) 8 = machine.registers rsp - 8 := sub_exact _ _ stack top
  have called : machine.call target back = .ok (machine.entered target back) := by
    unfold Machine.call
    rw [slot]
    exact if_pos writable
  have held := holds_entered machine target back target _ holds (by
    intro index below
    rw [List.length_append, assemble_length] at below
    have clear := apart index below
    rw [slot]
    omega)
  have pointer : (machine.entered target back).registers rsp = machine.registers rsp - 8 := by
    rw [← slot]
    exact Function.update_self rsp _ machine.registers
  have popped : add (machine.registers rsp - 8) 8 = machine.registers rsp := by
    rw [add_exact _ _ (by omega)]
    omega
  have home : loadWord (machine.entered target back).memory (machine.registers rsp - 8) = back := by
    rw [← slot]
    exact (load_store_same _ _ _ _).trans (Nat.mod_eq_of_lt returns)
  rw [called]
  change run (code.length + 1) _ = _
  rw [run_subroutine code _ held room kept (by rw [pointer]; exact readable), pointer, popped, home]
  simp only [Machine.entered, slot]

end LinuxMemory.MachineCode
