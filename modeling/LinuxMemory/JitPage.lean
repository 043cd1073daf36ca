import LinuxMemory.MachineCode

/-!
A page that is first written and then run. In `01_mprotect_jit.c` it is made executable
in between, in `06_w_xor_x.c` it is not. Between the calls of the new function the
program goes on: it sets registers, stores, calls and runs code that lies elsewhere.
-/

namespace LinuxMemory.JitPage

open ByteMemory MachineCode Word

def readWrite : Protection := ⟨true, true, false⟩

def readExecute : Protection := ⟨true, false, true⟩

def mprotect (machine : Machine) (p : Nat) (protection : Protection) : Machine :=
  { machine with protection := Function.update machine.protection (page p) protection }

def mmap (machine : Machine) (p : Nat) : Machine :=
  { machine with
    memory := fun address => if page address = page p then 0 else machine.memory address
    protection := Function.update machine.protection (page p) readWrite }

def memcpy (machine : Machine) (target : Nat) : List UInt8 → Except Fault Machine
  | [] => .ok machine
  | byte :: rest => machine.storeByte target byte >>= fun next => memcpy next (target + 1) rest

def code : List UInt8 := [0x48, 0x89, 0xf8, 0x48, 0x01, 0xf0, 0xc3]

/-- `main` up to its call of the function. -/
def build (machine : Machine) (p : Nat) : Except Fault Machine :=
  memcpy (mmap machine p) p code >>= fun filled => .ok (mprotect filled p readExecute)

/-- The function at `p`, called with a return address: its three instructions. -/
def callFunction (machine : Machine) (p back : Nat) : Except Fault Machine :=
  machine.call p back >>= run 3

inductive Event where
  | set (register : Register) (value : Nat)
  | store (address : Nat) (byte : UInt8)
  | call (target back : Nat)
  | step

def perform (machine : Machine) : Event → Except Fault Machine
  | .set register value =>
      .ok { machine with registers := Function.update machine.registers register value }
  | .store address byte => machine.storeByte address byte
  | .call target back => machine.call target back
  | .step => machine.step

def performAll : List Event → Machine → Except Fault Machine
  | [], machine => .ok machine
  | event :: rest, machine => perform machine event >>= performAll rest

def Exclusive (machine : Machine) : Prop :=
  ∀ number, ¬ ((machine.protection number).write = true ∧ (machine.protection number).execute = true)

/-! The function, as operations on registers. -/

def operations : List Operation := [⟨.mov, rax, rdi⟩, ⟨.add, rax, rsi⟩]

theorem code_assembled : code = assemble operations ++ [retByte] := by decide

theorem page_near (p index : Nat) (aligned : p % 4096 = 0) (below : index < 4096) :
    page (p + index) = page p := by
  unfold page
  omega

/-! Copying. -/

theorem storeByte_writes (machine : Machine) (address : Nat) (byte : UInt8)
    (writable : (machine.protection (page address)).write = true) :
    machine.storeByte address byte = .ok { machine with memory := poke machine.memory address byte } :=
  if_pos writable

theorem memcpy_fills (machine : Machine) (p start : Nat) (bytes : List UInt8)
    (aligned : p % 4096 = 0) (room : start + bytes.length ≤ 4096)
    (writable : (machine.protection (page p)).write = true) :
    ∃ filled, memcpy machine (p + start) bytes = .ok filled ∧
      filled.protection = machine.protection ∧ filled.registers = machine.registers ∧
      filled.rip = machine.rip ∧
      (∀ index byte, bytes[index]? = some byte → filled.memory (p + start + index) = byte) ∧
      ∀ address, address < p + start ∨ p + start + bytes.length ≤ address →
        filled.memory address = machine.memory address := by
  induction bytes generalizing machine start with
  | nil => exact ⟨machine, rfl, rfl, rfl, rfl, by simp, fun _ _ => rfl⟩
  | cons byte rest ih =>
      rw [List.length_cons] at room
      have stored := storeByte_writes machine (p + start) byte
        (by rw [page_near p start aligned (by omega)]; exact writable)
      obtain ⟨filled, copied, protection, registers, rip, bytes, others⟩ :=
        ih { machine with memory := poke machine.memory (p + start) byte } (start + 1) (by omega) writable
      refine ⟨filled, ?_, protection, registers, rip, ?_, ?_⟩
      · rw [memcpy, stored]
        exact copied
      · intro index value found
        cases index with
        | zero =>
            rw [List.getElem?_cons_zero, Option.some.injEq] at found
            subst found
            rw [others _ (by omega)]
            exact if_pos rfl
        | succ index =>
            have later := bytes index value found
            rwa [show p + start + (index + 1) = p + (start + 1) + index by omega]
      · intro address outside
        rw [List.length_cons] at outside
        rw [others address (by omega)]
        exact if_neg (by omega)

/-! What stays while the program goes on. -/

/-- The page holds the code and may be run but not written. -/
structure Sealed (p : Nat) (machine : Machine) : Prop where
  protection : machine.protection (page p) = readExecute
  holds : ∀ index byte, code[index]? = some byte → machine.memory (p + index) = byte

theorem build_sealed (machine : Machine) (p : Nat) (aligned : p % 4096 = 0) :
    ∃ ready, build machine p = .ok ready ∧ Sealed p ready ∧
      ready.protection = Function.update machine.protection (page p) readExecute := by
  obtain ⟨filled, copied, protection, _, _, bytes, _⟩ := memcpy_fills (mmap machine p) p 0 code
    aligned (by decide) (by simp only [mmap, Function.update_self, readWrite])
  refine ⟨mprotect filled p readExecute, ?_, ⟨Function.update_self .., bytes⟩, ?_⟩
  · rw [Nat.add_zero] at copied
    rw [build, copied]
    rfl
  · simp only [mprotect, protection, mmap, Function.update_idem]

theorem sealed_store (machine next : Machine) (p address : Nat) (byte : UInt8)
    (aligned : p % 4096 = 0) (sealed : Sealed p machine)
    (stored : machine.storeByte address byte = .ok next) :
    Sealed p next ∧ next.protection = machine.protection := by
  unfold Machine.storeByte at stored
  split at stored
  · next writable =>
      cases stored
      refine ⟨⟨sealed.protection, ?_⟩, rfl⟩
      intro index value found
      have below : index < 7 := (List.getElem?_eq_some_iff.mp found).1
      have other : p + index ≠ address := by
        intro same
        rw [← same, page_near p index aligned (by omega), sealed.protection] at writable
        contradiction
      rw [← sealed.holds index value found]
      exact if_neg other
  · contradiction

theorem writable_outside (machine : Machine) (p slot index : Nat) (aligned : p % 4096 = 0)
    (below : index < 4096) (fixed : (machine.protection (page p)).write = false)
    (writable : machine.writable slot = true) : p + index < slot ∨ slot + 8 ≤ p + index := by
  simp only [Machine.writable, Bool.and_eq_true] at writable
  have first : page slot ≠ page p := by
    intro same
    rw [same, fixed] at writable
    exact absurd writable.1 (by decide)
  have last : page (slot + 7) ≠ page p := by
    intro same
    rw [same, fixed] at writable
    exact absurd writable.2 (by decide)
  unfold page at first last
  omega

theorem sealed_call (machine next : Machine) (p target back : Nat) (aligned : p % 4096 = 0)
    (sealed : Sealed p machine) (called : machine.call target back = .ok next) :
    Sealed p next ∧ next.protection = machine.protection := by
  simp only [Machine.call] at called
  split at called
  · next writable =>
      cases called
      refine ⟨⟨sealed.protection, ?_⟩, rfl⟩
      intro index value found
      have below : index < 7 := (List.getElem?_eq_some_iff.mp found).1
      have apart := writable_outside machine p _ index aligned (by omega)
        (by rw [sealed.protection]; rfl) writable
      rw [← sealed.holds index value found]
      exact store_outside _ _ _ _ _ apart
  · contradiction

theorem sealed_step (machine next : Machine) (p : Nat) (event : Event) (aligned : p % 4096 = 0)
    (sealed : Sealed p machine) (performed : perform machine event = .ok next) :
    Sealed p next ∧ next.protection = machine.protection := by
  cases event with
  | set register value => cases performed; exact ⟨⟨sealed.protection, sealed.holds⟩, rfl⟩
  | store address byte => exact sealed_store machine next p address byte aligned sealed performed
  | call target back => exact sealed_call machine next p target back aligned sealed performed
  | step =>
      obtain ⟨memory, protection⟩ := step_memory machine next performed
      exact ⟨⟨by rw [protection]; exact sealed.protection, by rw [memory]; exact sealed.holds⟩,
        protection⟩

theorem sealed_run (machine last : Machine) (p : Nat) (events : List Event)
    (aligned : p % 4096 = 0) (sealed : Sealed p machine)
    (performed : performAll events machine = .ok last) :
    Sealed p last ∧ last.protection = machine.protection := by
  induction events generalizing machine with
  | nil => cases performed; exact ⟨sealed, rfl⟩
  | cons event rest ih =>
      rw [performAll] at performed
      cases first : perform machine event with
      | error fault => rw [first] at performed; contradiction
      | ok next =>
          rw [first] at performed
          obtain ⟨kept, same⟩ := sealed_step machine next p event aligned sealed first
          obtain ⟨ended, protection⟩ := ih next kept performed
          exact ⟨ended, protection.trans same⟩

theorem sealed_holds (machine : Machine) (p : Nat) (aligned : p % 4096 = 0)
    (sealed : Sealed p machine) : machine.Holds p (assemble operations ++ [retByte]) := by
  intro index byte found
  rw [← code_assembled] at found
  have below : index < 7 := (List.getElem?_eq_some_iff.mp found).1
  have executable : (machine.protection (page (p + index))).execute = true := by
    rw [page_near p index aligned (by omega), sealed.protection]
    rfl
  rw [← sealed.holds index byte found]
  exact if_pos executable

theorem operations_add (registers : Registers) (slot : Nat) :
    Function.update (operations.foldl Operation.apply (Function.update registers rsp slot)) rsp
      (registers rsp) =
    Function.update registers rax (add (registers rdi) (registers rsi)) := by
  funext register
  simp only [operations, List.foldl_cons, List.foldl_nil, Operation.apply]
  by_cases pointer : register = rsp
  · subst pointer
    rw [Function.update_self, Function.update_of_ne (by decide)]
  · rw [Function.update_of_ne pointer]
    by_cases result : register = rax
    · subst result
      rw [Function.update_self, Function.update_self, Function.update_self,
        Function.update_of_ne (by decide), Function.update_of_ne (by decide),
        Function.update_of_ne (by decide)]
    · rw [Function.update_of_ne result, Function.update_of_ne result,
        Function.update_of_ne pointer, Function.update_of_ne result]

theorem sealed_adds (machine : Machine) (p back : Nat) (region : Region p 4096)
    (sealed : Sealed p machine) (stack : 8 ≤ machine.registers rsp)
    (top : machine.registers rsp < 2 ^ 64) (returns : back < 2 ^ 64)
    (writable : machine.writable (machine.registers rsp - 8) = true)
    (readable : machine.readable (machine.registers rsp - 8) = true) :
    callFunction machine p back = .ok { machine with
      registers := Function.update machine.registers rax
        (add (machine.registers rdi) (machine.registers rsi))
      rip := back
      memory := storeWord machine.memory (machine.registers rsp - 8) back } := by
  have fixed : (machine.protection (page p)).write = false := by rw [sealed.protection]; rfl
  have small : 3 * operations.length + 1 = 7 := rfl
  have length : 3 * operations.length = 6 := rfl
  have below := region.below
  have ran := call_returns operations machine p back (sealed_holds machine p region.aligned sealed)
    (by omega) (by decide) stack top returns writable readable (by
      intro index inside
      have apart := writable_outside machine p _ index region.aligned (by omega) fixed writable
      omega)
  rw [operations_add] at ran
  exact ran

/-- A sum of two `int`s that is an `int`, from registers whose high halves hold anything. -/
theorem add_low (left right : Nat)
    (low : -2 ^ 31 ≤ toInt (left % 2 ^ 32) + toInt (right % 2 ^ 32))
    (high : toInt (left % 2 ^ 32) + toInt (right % 2 ^ 32) < 2 ^ 31) :
    toInt (add left right % 2 ^ 32) = toInt (left % 2 ^ 32) + toInt (right % 2 ^ 32) := by
  have wrapped : add left right % 2 ^ 32 = (left % 2 ^ 32 + right % 2 ^ 32) % 2 ^ 32 := by
    unfold add
    omega
  rw [wrapped]
  simp only [toInt] at low high ⊢
  split at low <;> split at low <;> split <;> omega

theorem exclusive_update (machine : Machine) (p : Nat) (protection : Protection)
    (exclusive : Exclusive machine) (one : ¬ (protection.write = true ∧ protection.execute = true))
    (number : Nat) :
    ¬ ((Function.update machine.protection (page p) protection number).write = true ∧
      (Function.update machine.protection (page p) protection number).execute = true) := by
  by_cases here : number = page p
  · subst here
    rw [Function.update_self]
    exact one
  · rw [Function.update_of_ne here]
    exact exclusive number

/-! The main results. -/

/-- The page is made, and whatever the program does afterwards a call of the function
returns `a + b` and changes nothing but `rax` and the stack slot of the call. -/
theorem jit_adds (before : Machine) (p : Nat) (region : Region p 4096) :
    ∃ ready, build before p = .ok ready ∧
      ready.protection = Function.update before.protection (page p) readExecute ∧
      ∀ events site back, performAll events ready = .ok site → back < 2 ^ 64 →
        8 ≤ site.registers rsp → site.registers rsp < 2 ^ 64 →
        site.writable (site.registers rsp - 8) = true →
        site.readable (site.registers rsp - 8) = true →
        ∃ after, callFunction site p back = .ok after ∧ after.rip = back ∧
          after.registers = Function.update site.registers rax
            (add (site.registers rdi) (site.registers rsi)) ∧
          after.protection = site.protection ∧
          (∀ address, address < site.registers rsp - 8 ∨ site.registers rsp ≤ address →
            after.memory address = site.memory address) ∧
          ∀ a b : Int, toInt (site.registers rdi % 2 ^ 32) = a →
            toInt (site.registers rsi % 2 ^ 32) = b →
            -2 ^ 31 ≤ a + b → a + b < 2 ^ 31 → toInt (after.registers rax % 2 ^ 32) = a + b := by
  obtain ⟨ready, built, sealed, protection⟩ := build_sealed before p region.aligned
  refine ⟨ready, built, protection, ?_⟩
  intro events site back performed returns stack top writable readable
  have kept := (sealed_run ready site p events region.aligned sealed performed).1
  refine ⟨_, sealed_adds site p back region kept stack top returns writable readable, rfl, rfl, rfl,
    ?_, ?_⟩
  · intro address outside
    exact store_outside _ _ _ _ _ (by omega)
  · rintro a b rfl rfl low high
    dsimp only
    rw [Function.update_self]
    exact add_low _ _ low high

def process : Machine where
  registers := fun _ => 0
  rip := 0x401000
  memory := fun _ => 0
  protection := fun number => if number = 0x7fff0 then readWrite else ⟨false, false, false⟩

theorem jit_adds_three : ∃ ready site after, build process 0x10000 = .ok ready ∧
    performAll [.set rsp 0x7fff0ff8, .set rdi 0xabcd00000003, .set rsi 4] ready = .ok site ∧
    callFunction site 0x10000 0x401080 = .ok after ∧ toInt (after.registers rax % 2 ^ 32) = 7 := by
  obtain ⟨ready, built, protection, adds⟩ := jit_adds process 0x10000
    ⟨by decide, by decide, by decide, by decide⟩
  have stack : ready.protection 0x7fff0 = readWrite := by
    rw [protection, Function.update_of_ne (by decide)]
    rfl
  obtain ⟨site, reached, pointer, left, right, same⟩ : ∃ site,
      performAll [.set rsp 0x7fff0ff8, .set rdi 0xabcd00000003, .set rsi 4] ready = .ok site ∧
      site.registers rsp = 0x7fff0ff8 ∧ site.registers rdi = 0xabcd00000003 ∧
      site.registers rsi = 4 ∧ site.protection = ready.protection := ⟨_, rfl, rfl, rfl, rfl, rfl⟩
  rw [← same] at stack
  have writable : site.writable 0x7fff0ff0 = true := by simp [Machine.writable, page, stack, readWrite]
  have readable : site.readable 0x7fff0ff0 = true := by simp [Machine.readable, page, stack, readWrite]
  obtain ⟨after, called, _, _, _, _, sum⟩ := adds _ site 0x401080 reached (by decide)
    (by rw [pointer]; decide) (by rw [pointer]; decide) (by rw [pointer]; exact writable)
    (by rw [pointer]; exact readable)
  exact ⟨ready, site, after, built, reached, called,
    sum 3 4 (by rw [left]; decide) (by rw [right]; decide) (by decide) (by decide)⟩

/-- While bytes are written the page cannot be run, whatever they are; once it can be
run it cannot be written. No page is ever both. -/
theorem write_xor_execute (before : Machine) (p : Nat) (aligned : p % 4096 = 0)
    (exclusive : Exclusive before) (bytes : List UInt8) (room : bytes.length ≤ 4096) :
    ∃ filled ready, memcpy (mmap before p) p bytes = .ok filled ∧ Exclusive filled ∧
      (∀ target back called steps, page target = page p → filled.call target back = .ok called →
        run (steps + 1) called = .error (.fetch target)) ∧
      build before p = .ok ready ∧
      ∀ events site, performAll events ready = .ok site → Exclusive site ∧
        ∀ address byte, page address = page p →
          site.storeByte address byte = .error (.write address) := by
  obtain ⟨filled, copied, protection, _⟩ := memcpy_fills (mmap before p) p 0 bytes aligned
    (by omega) (by simp only [mmap, Function.update_self, readWrite])
  obtain ⟨ready, built, sealed, flipped⟩ := build_sealed before p aligned
  refine ⟨filled, ready, copied, ?_, ?_, built, ?_⟩
  · unfold Exclusive
    rw [protection]
    exact exclusive_update before p readWrite exclusive (by decide)
  · intro target back called steps here entered
    have fault : called.fetch called.rip = .error (.fetch target) := by
      simp only [Machine.call] at entered
      split at entered
      · cases entered
        unfold Machine.fetch Machine.entered
        dsimp only
        rw [protection, here, if_neg (by simp [mmap, readWrite])]
      · contradiction
    rw [run, Machine.step, Machine.fetchInstruction, fault]
    rfl
  · intro events site performed
    obtain ⟨kept, same⟩ := sealed_run ready site p events aligned sealed performed
    constructor
    · unfold Exclusive
      rw [same, flipped]
      exact exclusive_update before p readExecute exclusive (by decide)
    · intro address byte here
      exact if_neg (by rw [here, kept.protection]; decide)

theorem write_xor_execute_ret : ∃ filled,
    memcpy (mmap process 0x10000) 0x10000 [retByte] = .ok filled ∧ Exclusive filled ∧
    ∀ back called, filled.call 0x10000 back = .ok called → run 1 called = .error (.fetch 0x10000) := by
  have exclusive : Exclusive process := by
    intro number
    simp only [process]
    split <;> decide
  obtain ⟨filled, _, copied, kept, faults, _⟩ :=
    write_xor_execute process 0x10000 (by decide) exclusive [retByte] (by decide)
  exact ⟨filled, copied, kept, fun back called entered =>
    faults 0x10000 back called 0 rfl entered⟩

end LinuxMemory.JitPage
