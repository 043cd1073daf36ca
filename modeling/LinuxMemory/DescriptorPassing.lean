import LinuxMemory.ByteMemory
import LinuxMemory.Descriptors
import LinuxMemory.Transition
import LinuxMemory.Word

/-!
An open file passed over a socket, as in `10_ipc_memory/10_scm_rights.c` from the
return of `fork` on. `send_fd` and `recv_fd` write and read a control message; while
it is in flight the kernel holds the open file itself and not its number.
`socketpair` and `fork` succeed; the file may be one that cannot be opened, and
descriptor 1 may be closed from the start, so that it is given out anew. Where it is
inherited it takes what is written. The lines of `printf` are left out: on a socket or
a file they stay in the buffer.
-/

namespace LinuxMemory.DescriptorPassing

open ByteMemory Descriptors Transition Word

/-! The control message: `cmsg_len`, `cmsg_level` and `cmsg_type` at offsets 0, 8 and
12 of the buffer, and the data at 16. -/

def headerSize : Nat := 16

def cmsgLen (n : Nat) : Nat := headerSize + n

def cmsgSpace (n : Nat) : Nat := headerSize + (n + 7) / 8 * 8

def solSocket : Nat := 1

def scmRights : Nat := 1

def writeHeader (cbuf : Memory) (len level type : Nat) : Memory :=
  store (store (store cbuf 8 0 len) 4 8 level) 4 12 type

/-- The control buffer that `send_fd` passes to `sendmsg`; `cbuf` is what it held before. -/
def sendControl (cbuf : Memory) (fd : Nat) : Memory :=
  store (writeHeader cbuf (cmsgLen 4) solSocket scmRights) 4 headerSize fd

/-- The descriptors that `sendmsg` finds there, or an error. -/
def rights (cbuf : Memory) (controllen : Nat) : Option (List Nat) :=
  if controllen < headerSize then some []
  else
    let len := load cbuf 8 0
    if len < headerSize ∨ controllen < len then none
    else if load cbuf 4 8 = solSocket ∧ load cbuf 4 12 = scmRights then
      some ((List.range ((len - headerSize) / 4)).map fun i => load cbuf 4 (headerSize + 4 * i))
    else some []

def recvControl (cbuf : Memory) (fd : Nat) : Memory :=
  store (writeHeader cbuf (cmsgLen 4) solSocket scmRights) 4 headerSize fd

/-- `recv_fd`, given the control buffer and its length after `recvmsg`, or `none`
where `recvmsg` returns nothing. -/
def recvFd : Option (Memory × Nat) → Int
  | none => -1
  | some (cbuf, controllen) =>
      if controllen < headerSize ∨ load cbuf 4 12 ≠ scmRights then -1
      else toInt (load cbuf 4 headerSize)

theorem header_word (cbuf : Memory) (len level type value : Nat) (small : len < 2 ^ 64)
    (level_small : level < 2 ^ 32) (type_small : type < 2 ^ 32) :
    load (store (writeHeader cbuf len level type) 4 headerSize value) 8 0 = len ∧
    load (store (writeHeader cbuf len level type) 4 headerSize value) 4 8 = level ∧
    load (store (writeHeader cbuf len level type) 4 headerSize value) 4 12 = type := by
  unfold writeHeader headerSize
  refine ⟨?_, ?_, ?_⟩
  · rw [load_store_apart _ 8 4 0 16 _ (.inl (by decide)), load_store_apart _ 8 4 0 12 _ (.inl (by decide)),
      load_store_apart _ 8 4 0 8 _ (.inl (by decide)), load_store_same]
    exact Nat.mod_eq_of_lt small
  · rw [load_store_apart _ 4 4 8 16 _ (.inl (by decide)), load_store_apart _ 4 4 8 12 _ (.inl (by decide)),
      load_store_same]
    exact Nat.mod_eq_of_lt level_small
  · rw [load_store_apart _ 4 4 12 16 _ (.inl (by decide)), load_store_same]
    exact Nat.mod_eq_of_lt type_small

/-- The kernel finds exactly the descriptor that `send_fd` put there. -/
theorem rights_sendControl (cbuf : Memory) (fd : Nat) (small : fd < 2 ^ 32) :
    rights (sendControl cbuf fd) (cmsgSpace 4) = some [fd] := by
  obtain ⟨len, level, type⟩ := header_word cbuf (cmsgLen 4) solSocket scmRights fd (by decide)
    (by decide) (by decide)
  unfold rights sendControl
  rw [len, level, type]
  have value : load (store (writeHeader cbuf (cmsgLen 4) solSocket scmRights) 4 headerSize fd) 4
      (headerSize + 4 * 0) = fd := by
    rw [Nat.mul_zero, Nat.add_zero, load_store_same]
    exact Nat.mod_eq_of_lt small
  simp [cmsgSpace, cmsgLen, headerSize] at value ⊢
  exact value

/-- `recv_fd` returns exactly the descriptor that the kernel has made. -/
theorem recvFd_recvControl (cbuf : Memory) (fd : Nat) (small : fd < 2 ^ 31) :
    recvFd (some (recvControl cbuf fd, cmsgSpace 4)) = fd := by
  obtain ⟨_, _, type⟩ := header_word cbuf (cmsgLen 4) solSocket scmRights fd (by decide) (by decide)
    (by decide)
  unfold recvFd recvControl
  have value : load (store (writeHeader cbuf (cmsgLen 4) solSocket scmRights) 4 headerSize fd) 4
      headerSize = fd := by
    rw [load_store_same]
    exact Nat.mod_eq_of_lt (by omega)
  have usable : ¬ (cmsgSpace 4 < headerSize ∨ scmRights ≠ scmRights) := by decide
  simp only [type, value, usable, ↓reduceIte, toInt, small]

/-! The two processes. -/

variable {Inherited : Type}

inductive Object (Inherited : Type) where
  | inherited (object : Inherited)
  | socket (child : Bool)
  | file
  deriving DecidableEq

-- `failed` has returned 1, since the file could not be opened
inductive Parent where
  | forked
  | opening
  | passing (fd : Nat)
  | passed (fd : Nat)
  | closing
  | waiting
  | exited
  | failed

-- `holding` is after `read`, whose result is `none` for -1
inductive Child where
  | forked
  | receiving
  | received (fd : Int)
  | holding (fd : Int) (buf : Option (List Char))
  | written (fd : Int)
  | closing
  | finished
  | exited
  | killed

/-- `flight` is the message in the socket, with the objects attached to it. -/
structure State (Inherited : Type) where
  parentTable : Table (Object Inherited)
  childTable : Table (Object Inherited)
  flight : Option (List (Object Inherited))
  parent : Parent
  child : Child
  output : List Char

inductive Event where
  | parentCloses | opens | fails | sends | closesFile | closesSocket | waits
  | childCloses | receives | hangsUp | reads | writes | refused | answers | sigpipe
  | childClosesFile | childClosesSocket | exits

def sendmsg (table : Table (Object Inherited)) (control : Memory) (controllen : Nat) :
    Option (List (Object Inherited)) :=
  (rights control controllen).bind fun fds => fds.mapM (lookup table)

/-- `lseek` to the start and `read` of at most 64 bytes. -/
def readStart [DecidableEq Inherited] (text : Option (List Char)) (table : Table (Object Inherited))
    (fd : Int) : Option (List Char) :=
  if 0 ≤ fd ∧ lookup table fd.toNat = some .file then text.map (List.take 64) else none

section Program
variable [DecidableEq Inherited] (inherited : Table Inherited) (cbuf : Memory)

def State.ends (child : Bool) (s : State Inherited) : Nat :=
  references (.socket child) s.parentTable + references (.socket child) s.childTable

def shell : Table (Object Inherited) := inherited.map (Option.map Object.inherited)

/-- `sv[0]` and `sv[1]`, and the table that both processes have after `fork`. -/
def sv0 : Nat := (install (.socket false) (shell inherited)).1

def sv1 : Nat := (install (.socket true) (install (.socket false) (shell inherited)).2).1

def pairTable : Table (Object Inherited) :=
  (install (.socket true) (install (.socket false) (shell inherited)).2).2

/-- `text` is the contents of the file, unless it cannot be opened. -/
inductive Step (text : Option (List Char)) : State Inherited → Event → State Inherited → Prop where
  | parentCloses {s : State Inherited} (here : s.parent = .forked) :
      Step text s .parentCloses
        { s with parentTable := close (sv1 inherited) s.parentTable, parent := .opening }
  | opens {s : State Inherited} (here : s.parent = .opening) (openable : text.isSome = true) :
      Step text s .opens
        { s with parentTable := (install .file s.parentTable).2,
                 parent := .passing (install (.file : Object Inherited) s.parentTable).1 }
  | fails {s : State Inherited} (here : s.parent = .opening) (missing : text = none) :
      Step text s .fails { s with parentTable := [], parent := .failed }
  | sends {s : State Inherited} {fd : Nat} (here : s.parent = .passing fd)
      (peer : 0 < references (.socket true) s.childTable) :
      Step text s .sends
        { s with flight := sendmsg s.parentTable (sendControl cbuf fd) (cmsgSpace 4),
                 parent := .passed fd }
  | closesFile {s : State Inherited} {fd : Nat} (here : s.parent = .passed fd) :
      Step text s .closesFile { s with parentTable := close fd s.parentTable, parent := .closing }
  | closesSocket {s : State Inherited} (here : s.parent = .closing) :
      Step text s .closesSocket
        { s with parentTable := close (sv0 inherited) s.parentTable, parent := .waiting }
  | waits {s : State Inherited} (here : s.parent = .waiting)
      (gone : s.child = .exited ∨ s.child = .killed) :
      Step text s .waits { s with parentTable := [], parent := .exited }
  | childCloses {s : State Inherited} (here : s.child = .forked) :
      Step text s .childCloses
        { s with childTable := close (sv0 inherited) s.childTable, child := .receiving }
  -- the kernel installs the object under a new number in the table of the receiver
  | receives {s : State Inherited} {object : Object Inherited} (here : s.child = .receiving)
      (there : s.flight = some [object]) :
      Step text s .receives
        { s with flight := none, childTable := (install object s.childTable).2,
                 child := .received
                   (recvFd (some (recvControl cbuf (install object s.childTable).1, cmsgSpace 4))) }
  -- the end of the parent is closed everywhere; where descriptor 2 is that end, the child may
  -- instead find a byte of what `perror` has written, and `recv_fd` returns the same
  | hangsUp {s : State Inherited} (here : s.child = .receiving) (empty : s.flight = none)
      (closed : s.ends false = 0) :
      Step text s .hangsUp { s with child := .received (recvFd none) }
  | reads {s : State Inherited} {fd : Int} (here : s.child = .received fd) :
      Step text s .reads { s with child := .holding fd (readStart text s.childTable fd) }
  | writes {s : State Inherited} {fd : Int} {buf : List Char} {object : Inherited}
      (here : s.child = .holding fd (some buf)) (there : lookup s.childTable 1 = some (.inherited object)) :
      Step text s .writes { s with child := .written fd, output := s.output ++ buf }
  -- for the count -1, and where descriptor 1 is not open for writing
  | refused {s : State Inherited} {fd : Int} {buf : Option (List Char)} (here : s.child = .holding fd buf)
      (bad : buf = none ∨ lookup s.childTable 1 = none ∨ lookup s.childTable 1 = some .file) :
      Step text s .refused { s with child := .written fd }
  | answers {s : State Inherited} {fd : Int} {buf : List Char} {child : Bool}
      (here : s.child = .holding fd (some buf)) (there : lookup s.childTable 1 = some (.socket child))
      (peer : 0 < s.ends (!child)) :
      Step text s .answers { s with child := .written fd }
  | sigpipe {s : State Inherited} {fd : Int} {buf : List Char} {child : Bool}
      (here : s.child = .holding fd (some buf)) (there : lookup s.childTable 1 = some (.socket child))
      (closed : s.ends (!child) = 0) :
      Step text s .sigpipe { s with childTable := [], child := .killed }
  | childClosesFile {s : State Inherited} {fd : Int} (here : s.child = .written fd) :
      Step text s .childClosesFile
        { s with childTable := if 0 ≤ fd then close fd.toNat s.childTable else s.childTable,
                 child := .closing }
  | childClosesSocket {s : State Inherited} (here : s.child = .closing) :
      Step text s .childClosesSocket
        { s with childTable := close (sv1 inherited) s.childTable, child := .finished }
  | exits {s : State Inherited} (here : s.child = .finished) :
      Step text s .exits { s with childTable := [], child := .exited }

def initial : State Inherited :=
  ⟨pairTable inherited, pairTable inherited, none, .forked, .forked, []⟩

def system (text : Option (List Char)) : System (State Inherited) Event :=
  ⟨(· = initial inherited), Step inherited cbuf text⟩

abbrev Run (text : Option (List Char)) : State Inherited → Prop := Reachable (system inherited cbuf text)

end Program

/-! Who holds what. -/

def Parent.file : Parent → Option Nat
  | .passing fd | .passed fd => some fd
  | _ => none

def Parent.socket : Parent → Bool
  | .forked | .opening | .passing _ | .passed _ | .closing => true
  | _ => false

def Parent.sent : Parent → Bool
  | .passed _ | .closing | .waiting | .exited => true
  | _ => false

def Child.file : Child → Option Int
  | .received fd | .holding fd _ | .written fd => some fd
  | _ => none

def Child.socket : Child → Bool
  | .forked => true
  | _ => false

def Child.peer : Child → Bool
  | .finished | .exited | .killed => false
  | _ => true

def Child.alive : Child → Bool
  | .exited | .killed => false
  | _ => true

def Child.taken : Child → Bool
  | .forked | .receiving => false
  | _ => true

def Child.done : Child → Bool
  | .written _ | .closing | .finished | .exited => true
  | _ => false

/-- How many descriptors and messages refer to the file: it stays open while there is one. -/
def State.references [DecidableEq Inherited] (s : State Inherited) : Nat :=
  Descriptors.references .file s.parentTable + Descriptors.references .file s.childTable +
    (s.flight.getD []).count .file

section Inherited
variable {inherited : Table Inherited} {table : Table (Object Inherited)}

/-- The descriptors from before the program are as they were, and there are no others of them. -/
def Kept (inherited : Table Inherited) (table : Table (Object Inherited)) : Prop :=
  ∀ fd object, lookup table fd = some (.inherited object) ↔ lookup inherited fd = some object

theorem kept_shell (inherited : Table Inherited) : Kept inherited (shell inherited) := by
  intro fd object
  unfold lookup shell
  rw [List.getD_eq_getElem?_getD, List.getD_eq_getElem?_getD, List.getElem?_map]
  rcases inherited[fd]? with _ | _ | kept <;> simp

theorem kept_install (object : Object Inherited) (outside : ∀ kept, object ≠ .inherited kept)
    (kept : Kept inherited table) : Kept inherited (install object table).2 := by
  intro fd other
  rw [← kept fd other, lookup_install]
  split
  · rename_i new
    rw [new, install_free]
    simp [outside]
  · exact Iff.rfl

theorem kept_close (fd : Nat) (object : Object Inherited) (outside : ∀ kept, object ≠ .inherited kept)
    (there : lookup table fd = some object) (kept : Kept inherited table) : Kept inherited (close fd table) := by
  intro fd' other
  rw [← kept fd' other, lookup_close]
  split
  · rename_i same
    rw [same, there]
    simp [outside]
  · exact Iff.rfl

theorem outside_absent {fd : Nat} {object : Object Inherited} (kept : Kept inherited table)
    (outside : ∀ kept, object ≠ .inherited kept) (there : lookup table fd = some object) :
    lookup inherited fd = none := by
  refine Option.eq_none_iff_forall_ne_some.2 (fun other before => ?_)
  rw [← kept fd other, there] at before
  exact outside other (Option.some.inj before)

end Inherited

section Invariant
variable [DecidableEq Inherited] (inherited : Table Inherited) (text : Option (List Char))

structure ParentSound (table : Table (Object Inherited)) (parent : Parent) : Prop where
  short : table.length ≤ inherited.length + if parent.file.isSome || parent.sent then 3 else 2
  file : references .file table = if parent.file.isSome then 1 else 0
  fileAt : ∀ fd, parent.file = some fd → lookup table fd = some .file ∧ fd ≤ inherited.length + 2
  socket : references (.socket false) table = if parent.socket then 1 else 0
  socketAt : parent.socket = true → lookup table (sv0 inherited) = some (.socket false)
  forkAt : parent = .forked → lookup table (sv1 inherited) = some (.socket true)
  opened : parent.file.isSome = true ∨ parent.sent = true → text.isSome = true
  failed : parent = .failed → text = none

structure ChildSound (table : Table (Object Inherited)) (child : Child) (output : List Char) : Prop where
  short : child.taken = false → table.length ≤ inherited.length + 2
  file : references .file table = if child.file.isSome && text.isSome then 1 else 0
  fileAt : ∀ fd, child.file = some fd → if text.isSome then
    0 ≤ fd ∧ lookup table fd.toNat = some .file else fd = -1
  socket : references (.socket false) table = if child.socket then 1 else 0
  socketAt : child = .forked → lookup table (sv0 inherited) = some (.socket false)
  peerAt : child.peer = true → lookup table (sv1 inherited) = some (.socket true)
  buffered : ∀ fd buf, child = .holding fd buf → buf = text.map (List.take 64)
  output : output = if child.done && (lookup inherited 1).isSome then (text.map (List.take 64)).getD [] else []
  kept : child.alive = true → Kept inherited table
  killed : child = .killed → lookup inherited 1 = none ∧ text.isSome = true

structure Sound (s : State Inherited) : Prop where
  parent : ParentSound inherited text s.parentTable s.parent
  child : ChildSound inherited text s.childTable s.child s.output
  flight : s.flight = if s.parent.sent && !s.child.taken then some [.file] else none
  order : s.child.taken = true → text.isSome = true → s.parent.sent = true
  reaped : s.parent = .exited → s.child = .exited ∨ s.child = .killed

end Invariant

theorem ends_differ (inherited : Table Inherited) : sv0 inherited ≠ sv1 inherited := by
  apply install_fresh (Object.socket true) (Object.socket false)
  rw [lookup_install]
  exact if_pos rfl

theorem sendmsg_file (table : Table (Object Inherited)) (cbuf : Memory) (fd : Nat) (small : fd < 2 ^ 32)
    (there : lookup table fd = some .file) :
    sendmsg table (sendControl cbuf fd) (cmsgSpace 4) = some [.file] := by
  unfold sendmsg
  rw [rights_sendControl cbuf fd small]
  simp [there]

section Tables
variable [DecidableEq Inherited] {inherited : Table Inherited} {text : Option (List Char)}
variable {table : Table (Object Inherited)}

theorem shell_none (object : Object Inherited) (outside : ∀ kept, object ≠ .inherited kept) :
    references object (shell inherited) = 0 := by
  unfold references shell
  rw [List.count_eq_zero, List.mem_map]
  rintro ⟨entry, _, same⟩
  cases entry with
  | none => simp at same
  | some kept => exact outside kept (Option.some.inj same).symm

theorem pairTable_facts (inherited : Table Inherited) : references .file (pairTable inherited) = 0 ∧
    references (.socket false) (pairTable inherited) = 1 ∧
    lookup (pairTable inherited) (sv0 inherited) = some (.socket false) ∧
    lookup (pairTable inherited) (sv1 inherited) = some (.socket true) ∧
    (pairTable inherited).length ≤ inherited.length + 2 ∧ Kept inherited (pairTable inherited) := by
  have first := install_le (Object.socket false) (shell inherited)
  have second := install_le (Object.socket true) (install (Object.socket false) (shell inherited)).2
  refine ⟨?_, ?_, ?_, ?_, ?_, ?_⟩
  · simp [pairTable, references_install, shell_none]
  · simp [pairTable, references_install, shell_none]
  · have there : lookup (install (Object.socket false) (shell inherited)).2 (sv0 inherited) =
        some (.socket false) := by
      rw [lookup_install]
      exact if_pos rfl
    unfold pairTable
    rw [lookup_install, there]
    exact if_neg (ends_differ inherited)
  · unfold pairTable
    rw [lookup_install]
    exact if_pos rfl
  · have bound : (shell inherited).length = inherited.length := List.length_map _
    unfold pairTable
    omega
  · exact kept_install _ (by simp) (kept_install _ (by simp) (kept_shell inherited))

theorem readStart_sound (fd : Int) (fileAt : if text.isSome then
    0 ≤ fd ∧ lookup table fd.toNat = some (.file : Object Inherited) else fd = -1) :
    readStart text table fd = text.map (List.take 64) := by
  unfold readStart
  cases text with
  | none =>
      simp only [Option.isSome_none, Bool.false_eq_true, ↓reduceIte] at fileAt
      simp
  | some contents =>
      simp only [Option.isSome_some, ↓reduceIte] at fileAt
      rw [if_pos fileAt]

end Tables

section Steps
variable [DecidableEq Inherited] {inherited : Table Inherited} {cbuf : Memory}
variable {text : Option (List Char)}

theorem parent_step (before after : State Inherited) (event : Event)
    (sound : ParentSound inherited text before.parentTable before.parent)
    (next : Step inherited cbuf text before event after) :
    ParentSound inherited text after.parentTable after.parent := by
  obtain ⟨short, file, fileAt, socket, socketAt, forkAt, opened, failed⟩ := sound
  cases next with
  | parentCloses here =>
      rw [here] at short file socket socketAt
      have there := forkAt here
      have struck := fun other => references_close _ _ _ other there
      refine ⟨?_, ?_, by simp [Parent.file], ?_, ?_, by simp, by simp [Parent.file, Parent.sent], by simp⟩
      · simpa [close, Parent.file, Parent.sent] using short
      · simpa [file, Parent.file] using struck .file
      · simpa [socket, Parent.socket] using struck (.socket false)
      · intro _
        rw [lookup_close, if_neg (ends_differ inherited)]
        exact socketAt rfl
  | opens here openable =>
      rw [here] at short file socket socketAt
      have sizes := install_le (.file : Object Inherited) before.parentTable
      simp only [Parent.file, Parent.sent, Option.isSome_none, Bool.or_self, Bool.false_eq_true,
        ↓reduceIte] at short file
      refine ⟨?_, ?_, ?_, ?_, ?_, by simp, fun _ => openable, by simp⟩
      · show (install (.file : Object Inherited) before.parentTable).2.length ≤ inherited.length + 3
        omega
      · simp [references_install, file, Parent.file]
      · intro fd same
        cases same
        refine ⟨?_, by omega⟩
        rw [lookup_install, if_pos rfl]
      · simp [references_install, socket, Parent.socket]
      · intro _
        have there := socketAt rfl
        rw [lookup_install, if_neg (install_fresh _ _ _ _ there), there]
  | fails here missing =>
      exact ⟨Nat.zero_le _, rfl, by simp [Parent.file], rfl, by simp [Parent.socket], by simp,
        by simp [Parent.file, Parent.sent], fun _ => missing⟩
  | sends here peer =>
      rw [here] at short file fileAt socket socketAt opened
      exact ⟨short, file, fileAt, socket, socketAt, by simp, fun _ => opened (.inl rfl), by simp⟩
  | @closesFile fd here =>
      rw [here] at short file fileAt socket socketAt opened
      obtain ⟨there, _⟩ := fileAt fd rfl
      have struck := fun other => references_close _ _ _ other there
      refine ⟨?_, ?_, by simp [Parent.file], ?_, ?_, by simp, fun _ => opened (.inl rfl), by simp⟩
      · simpa [close, Parent.file, Parent.sent] using short
      · simpa [file, Parent.file] using struck .file
      · simpa [socket, Parent.socket] using struck (.socket false)
      · intro _
        have end0 := socketAt rfl
        rw [lookup_close, if_neg, end0]
        rintro same
        rw [same, there] at end0
        simp at end0
  | closesSocket here =>
      rw [here] at short file socket socketAt opened
      have struck := fun other => references_close _ _ _ other (socketAt rfl)
      refine ⟨?_, ?_, by simp [Parent.file], ?_, by simp [Parent.socket], by simp,
        fun _ => opened (.inr rfl), by simp⟩
      · simpa [close, Parent.file, Parent.sent] using short
      · simpa [file, Parent.file] using struck .file
      · simpa [socket, Parent.socket] using struck (.socket false)
  | waits here gone =>
      rw [here] at opened
      exact ⟨Nat.zero_le _, rfl, by simp [Parent.file], rfl, by simp [Parent.socket], by simp,
        fun _ => opened (.inr rfl), by simp⟩
  | childCloses | receives | hangsUp | reads | writes | refused | answers | sigpipe
  | childClosesFile | childClosesSocket | exits =>
      exact ⟨short, file, fileAt, socket, socketAt, forkAt, opened, failed⟩

theorem child_written (s : State Inherited) (fd : Int) (buf : Option (List Char)) (output : List Char)
    (sound : ChildSound inherited text s.childTable s.child s.output) (here : s.child = .holding fd buf)
    (copied : output = if (lookup inherited 1).isSome then (text.map (List.take 64)).getD [] else []) :
    ChildSound inherited text s.childTable (.written fd) output := by
  obtain ⟨short, file, fileAt, socket, socketAt, peerAt, buffered, _, kept, killed⟩ := sound
  rw [here] at file fileAt socket peerAt kept
  exact ⟨by simp [Child.taken], file, fileAt, socket, by simp, peerAt, by simp, copied, kept, by simp⟩

theorem child_step (before after : State Inherited) (event : Event) (few : inherited.length + 2 < 2 ^ 31)
    (sound : ChildSound inherited text before.childTable before.child before.output)
    (sent : ∀ object, before.child = .receiving → before.flight = some [object] →
      object = .file ∧ text.isSome = true)
    (unsent : before.child = .receiving → before.flight = none → before.ends false = 0 → text = none)
    (next : Step inherited cbuf text before event after) :
    ChildSound inherited text after.childTable after.child after.output := by
  have whole := sound
  obtain ⟨short, file, fileAt, socket, socketAt, peerAt, buffered, output, kept, killed⟩ := sound
  cases next with
  | childCloses here =>
      rw [here] at short file socket peerAt output kept
      have end0 := socketAt here
      have struck := fun other => references_close _ _ _ other end0
      refine ⟨?_, ?_, by simp [Child.file], ?_, by simp, ?_, by simp, output, fun _ => ?_, by simp⟩
      · simpa [close, Child.taken] using short
      · simpa [file, Child.file] using struck .file
      · simpa [socket, Child.socket] using struck (.socket false)
      · intro _
        rw [lookup_close, if_neg (Ne.symm (ends_differ inherited))]
        exact peerAt rfl
      · exact kept_close _ _ (by simp) end0 (kept rfl)
  | @receives object here there =>
      obtain ⟨rfl, openable⟩ := sent object here there
      rw [here] at short file socket peerAt output kept
      have sizes := install_le (.file : Object Inherited) before.childTable
      have bounded := short rfl
      rw [recvFd_recvControl cbuf _ (by omega)]
      refine ⟨by simp [Child.taken], ?_, ?_, ?_, by simp, ?_, by simp, output,
        fun _ => kept_install _ (by simp) (kept rfl), by simp⟩
      · simp [references_install, file, Child.file, openable]
      · intro fd same
        cases same
        rw [if_pos openable]
        refine ⟨Int.natCast_nonneg _, ?_⟩
        rw [Int.toNat_natCast, lookup_install, if_pos rfl]
      · simpa [references_install, Child.socket] using socket
      · intro _
        have end1 := peerAt rfl
        rw [lookup_install, if_neg (install_fresh _ _ _ _ end1), end1]
  | hangsUp here empty closed =>
      have missing := unsent here empty closed
      rw [here] at short file socket peerAt output kept
      refine ⟨by simp [Child.taken], ?_, ?_, socket, by simp, peerAt, by simp, output, kept, by simp⟩
      · simpa [missing, Child.file] using file
      · intro fd same
        cases same
        rw [missing]
        rfl
  | @reads fd here =>
      rw [here] at short file fileAt socket peerAt output kept
      refine ⟨by simp [Child.taken], file, fileAt, socket, by simp, peerAt, ?_, output, kept, by simp⟩
      rintro fd' buf same
      cases same
      exact readStart_sound fd (fileAt fd rfl)
  | @writes fd buf object here there =>
      have held := buffered fd _ here
      have first := (kept (by rw [here]; rfl) 1 object).1 there
      apply child_written before fd _ _ whole here
      rw [here] at output
      rw [output, first, ← held]
      rfl
  | @refused fd buf here bad =>
      have held := buffered fd _ here
      apply child_written before fd _ _ whole here
      rw [here] at output
      rw [output]
      rcases bad with failed | closed
      · rw [← held, failed]
        simp [Child.done]
      · have absent : lookup inherited 1 = none := by
          refine Option.eq_none_iff_forall_ne_some.2 (fun object there => ?_)
          rw [← kept (by rw [here]; rfl) 1 object] at there
          simp [there] at closed
        rw [absent]
        rfl
  | @answers fd buf child here there peer =>
      apply child_written before fd _ _ whole here
      rw [here] at output
      rw [output, outside_absent (kept (by rw [here]; rfl)) (by simp) there]
      rfl
  | @sigpipe fd buf child here there closed =>
      have held := buffered fd _ here
      have absent := outside_absent (kept (by rw [here]; rfl)) (by simp) there
      rw [here] at output
      refine ⟨by simp [Child.taken], rfl, by simp [Child.file], rfl, by simp, by simp [Child.peer], by simp,
        output, by simp [Child.alive], fun _ => ⟨absent, ?_⟩⟩
      cases text with
      | none => contradiction
      | some contents => rfl
  | @childClosesFile fd here =>
      rw [here] at short file fileAt socket peerAt output kept
      have held := fileAt fd rfl
      cases openable : text.isSome with
      | false =>
          -- there is nothing to close
          rw [openable] at held file
          simp only [Bool.false_eq_true, ↓reduceIte] at held
          rw [held, if_neg (by decide)]
          exact ⟨by simp [Child.taken], by simpa [Child.file] using file, by simp [Child.file], socket, by simp,
            peerAt, by simp, output, kept, by simp⟩
      | true =>
          rw [if_pos openable] at held
          rw [if_pos held.1]
          have struck := fun other => references_close _ _ _ other held.2
          refine ⟨by simp [Child.taken], ?_, by simp [Child.file], ?_, by simp, ?_, by simp, output,
            fun _ => kept_close _ _ (by simp) held.2 (kept rfl), by simp⟩
          · simpa [file, Child.file, openable] using struck .file
          · simpa [socket, Child.socket] using struck (.socket false)
          · intro _
            have end1 := peerAt rfl
            rw [lookup_close, if_neg, end1]
            rintro same
            rw [same, held.2] at end1
            simp at end1
  | childClosesSocket here =>
      rw [here] at short file socket peerAt output kept
      have end1 := peerAt rfl
      have struck := fun other => references_close _ _ _ other end1
      refine ⟨by simp [Child.taken], ?_, by simp [Child.file], ?_, by simp, by simp [Child.peer], by simp,
        output, fun _ => kept_close _ _ (by simp) end1 (kept rfl), by simp⟩
      · simpa [file, Child.file] using struck .file
      · simpa [socket, Child.socket] using struck (.socket false)
  | exits here =>
      rw [here] at output
      exact ⟨by simp [Child.taken], rfl, by simp [Child.file], rfl, by simp, by simp [Child.peer], by simp,
        output, by simp [Child.alive], by simp⟩
  | parentCloses | opens | fails | sends | closesFile | closesSocket | waits => exact whole

theorem flight_step (before after : State Inherited) (event : Event) (few : inherited.length + 2 < 2 ^ 31)
    (sound : Sound inherited text before) (next : Step inherited cbuf text before event after) :
    after.flight = if after.parent.sent && !after.child.taken then some [.file] else none := by
  obtain ⟨parent, child, flight, order, reaped⟩ := sound
  cases next with
  | parentCloses here | opens here | closesFile here | closesSocket here | waits here | fails here =>
      rw [here] at flight
      exact flight
  | @sends fd here peer =>
      obtain ⟨there, bounded⟩ := parent.fileAt fd (by rw [here]; rfl)
      have openable := parent.opened (.inl (by rw [here]; rfl))
      have waiting : before.child.taken = false := by
        cases taken : before.child.taken with
        | false => rfl
        | true =>
            have early := order taken openable
            rw [here] at early
            contradiction
      have small : fd < 2 ^ 32 := by omega
      have message := sendmsg_file before.parentTable cbuf fd small there
      dsimp only
      rw [message]
      simp only [waiting, Parent.sent, Bool.not_false, Bool.and_self, ↓reduceIte]
  | childCloses here | reads here | writes here | refused here | answers here | sigpipe here
  | childClosesFile here | childClosesSocket here | exits here =>
      rw [here] at flight
      exact flight
  | receives here there =>
      show none = if before.parent.sent && false then some [Object.file] else none
      rw [Bool.and_false]
      rfl
  | hangsUp here empty closed =>
      show before.flight = if before.parent.sent && false then some [Object.file] else none
      rw [Bool.and_false, empty]
      rfl

/-- What the child finds in the socket is the file, and it finds the parent's end
closed without a message only when the file could not be opened. -/
theorem sound_socket (s : State Inherited) (sound : Sound inherited text s) (here : s.child = .receiving) :
    (∀ object, s.flight = some [object] → object = .file ∧ text.isSome = true ∧ s.parent.sent = true) ∧
      (s.flight = none → s.ends false = 0 → text = none) := by
  have flight := sound.flight
  rw [here] at flight
  constructor
  · intro object there
    rw [flight] at there
    cases gone : s.parent.sent with
    | false =>
        rw [gone] at there
        contradiction
    | true =>
        rw [gone] at there
        exact ⟨(List.cons.inj (Option.some.inj there)).1.symm, sound.parent.opened (.inr gone), rfl⟩
  · intro empty closed
    rw [flight] at empty
    unfold State.ends at closed
    rw [sound.parent.socket] at closed
    -- the parent has let go of its end without a message, so it has failed
    cases place : s.parent with
    | failed => exact sound.parent.failed place
    | forked | opening | passing => simp [place, Parent.socket] at closed
    | passed | closing | waiting | exited => rw [place] at empty; contradiction

theorem order_step (before after : State Inherited) (event : Event) (sound : Sound inherited text before)
    (next : Step inherited cbuf text before event after) :
    after.child.taken = true → text.isSome = true → after.parent.sent = true := by
  have order := sound.order
  cases next with
  | parentCloses here | opens here | closesFile here | closesSocket here | waits here =>
      rw [here] at order
      exact order
  | fails here missing =>
      intro _ openable
      rw [missing] at openable
      contradiction
  | sends here peer => exact fun _ _ => rfl
  | childCloses here | reads here | writes here | refused here | answers here | sigpipe here
  | childClosesFile here | childClosesSocket here | exits here =>
      rw [here] at order
      exact order
  | receives here there => exact fun _ _ => ((sound_socket before sound here).1 _ there).2.2
  | hangsUp here empty closed =>
      intro _ openable
      rw [(sound_socket before sound here).2 empty closed] at openable
      contradiction

theorem reaped_step (before after : State Inherited) (event : Event) (sound : Sound inherited text before)
    (next : Step inherited cbuf text before event after) :
    after.parent = .exited → after.child = .exited ∨ after.child = .killed := by
  have reaped := sound.reaped
  cases next with
  | waits here gone => exact fun _ => gone
  | exits here => exact fun _ => .inl rfl
  | sigpipe here => exact fun _ => .inr rfl
  | parentCloses | opens | fails | sends | closesFile | closesSocket =>
      intro stopped
      contradiction
  | childCloses here | receives here | hangsUp here | reads here | writes here | refused here
  | answers here | childClosesFile here | childClosesSocket here =>
      intro stopped
      rcases reaped stopped with gone | gone <;> rw [gone] at here <;> contradiction

theorem sound_step (before after : State Inherited) (event : Event) (few : inherited.length + 2 < 2 ^ 31)
    (sound : Sound inherited text before) (next : Step inherited cbuf text before event after) :
    Sound inherited text after := by
  refine ⟨parent_step before after event sound.parent next, ?_, flight_step before after event few sound next,
    order_step before after event sound next, reaped_step before after event sound next⟩
  apply child_step before after event few sound.child _ _ next
  · intro object here there
    obtain ⟨same, openable, _⟩ := (sound_socket before sound here).1 object there
    exact ⟨same, openable⟩
  · exact fun here => (sound_socket before sound here).2

theorem run_sound (s : State Inherited) (few : inherited.length + 2 < 2 ^ 31)
    (run : Run inherited cbuf text s) : Sound inherited text s := by
  apply reachable_invariant (system inherited cbuf text) (Sound inherited text) _ _ s run
  · rintro first rfl
    obtain ⟨file, socket, end0, end1, short, kept⟩ := pairTable_facts inherited
    refine ⟨⟨short, file, by simp [initial, Parent.file], socket, fun _ => end0, fun _ => end1, ?_, ?_⟩,
      ⟨fun _ => short, file, by simp [initial, Child.file], socket, fun _ => end0, fun _ => end1, ?_, rfl,
        fun _ => kept, ?_⟩, rfl, ?_, ?_⟩ <;>
      simp [initial, Parent.file, Parent.sent, Child.taken]
  · exact fun before event after => sound_step before after event few

/-! Every step is progress. -/

def Parent.work : Parent → Nat
  | .forked => 6
  | .opening => 5
  | .passing _ => 4
  | .passed _ => 3
  | .closing => 2
  | .waiting => 1
  | .exited | .failed => 0

def Child.work : Child → Nat
  | .forked => 7
  | .receiving => 6
  | .received _ => 5
  | .holding .. => 4
  | .written _ => 3
  | .closing => 2
  | .finished => 1
  | .exited | .killed => 0

def State.work (s : State Inherited) : Nat := s.parent.work + s.child.work

theorem step_spends (before after : State Inherited) (event : Event)
    (next : Step inherited cbuf text before event after) : after.work < before.work := by
  unfold State.work
  cases next <;> simp only [*, Parent.work, Child.work] <;> omega

def State.Ended (s : State Inherited) : Prop :=
  (s.parent = .exited ∨ s.parent = .failed) ∧ s.child.alive = false

theorem child_writes (s : State Inherited) (fd : Int) (buf : List Char) (here : s.child = .holding fd (some buf)) :
    ∃ event after, Step inherited cbuf text s event after := by
  cases entry : lookup s.childTable 1 with
  | none => exact ⟨_, _, .refused here (.inr (.inl entry))⟩
  | some object =>
      cases object with
      | inherited object => exact ⟨_, _, .writes here entry⟩
      | file => exact ⟨_, _, .refused here (.inr (.inr entry))⟩
      | socket child =>
          rcases Nat.eq_zero_or_pos (s.ends (!child)) with closed | peer
          · exact ⟨_, _, .sigpipe here entry closed⟩
          · exact ⟨_, _, .answers here entry peer⟩

/-- Once the parent does nothing but wait, or is gone, the child is not blocked. -/
theorem child_moves (s : State Inherited) (sound : Sound inherited text s)
    (closed : s.parent.socket = false) (alive : s.child.alive = true) :
    ∃ event after, Step inherited cbuf text s event after := by
  cases place : s.child with
  | forked => exact ⟨_, _, .childCloses place⟩
  | received fd => exact ⟨_, _, .reads place⟩
  | written fd => exact ⟨_, _, .childClosesFile place⟩
  | closing => exact ⟨_, _, .childClosesSocket place⟩
  | finished => exact ⟨_, _, .exits place⟩
  | exited | killed =>
      rw [place] at alive
      contradiction
  | holding fd buf =>
      cases buf with
      | none => exact ⟨_, _, .refused place (.inl rfl)⟩
      | some contents => exact child_writes s fd contents place
  | receiving =>
      have flight := sound.flight
      rw [place] at flight
      cases gone : s.parent.sent with
      | true =>
          rw [gone] at flight
          exact ⟨_, _, .receives place flight⟩
      | false =>
          rw [gone] at flight
          have parent := sound.parent.socket
          have child := sound.child.socket
          rw [closed] at parent
          rw [place] at child
          refine ⟨_, _, .hangsUp place flight ?_⟩
          unfold State.ends
          rw [parent, child]
          rfl

theorem moves (s : State Inherited) (sound : Sound inherited text s) (unfinished : ¬ s.Ended) :
    ∃ event after, Step inherited cbuf text s event after := by
  cases place : s.parent with
  | forked => exact ⟨_, _, .parentCloses place⟩
  | opening =>
      cases openable : text.isSome with
      | true => exact ⟨_, _, .opens place openable⟩
      | false => exact ⟨_, _, .fails place (by simpa using openable)⟩
  | passing fd =>
      have openable := sound.parent.opened (.inl (by rw [place]; rfl))
      have early : s.child.peer = true := by
        cases there : s.child with
        | finished | exited | killed =>
            have sent := sound.order (by rw [there]; rfl) openable
            rw [place] at sent
            contradiction
        | _ => rfl
      exact ⟨_, _, .sends place (references_pos _ _ _ (sound.child.peerAt early))⟩
  | passed fd => exact ⟨_, _, .closesFile place⟩
  | closing => exact ⟨_, _, .closesSocket place⟩
  | waiting =>
      by_cases alive : s.child.alive = true
      · exact child_moves s sound (by rw [place]; rfl) alive
      · refine ⟨_, _, .waits place ?_⟩
        revert alive
        cases s.child <;> simp [Child.alive]
  | exited =>
      refine absurd ⟨.inl place, ?_⟩ unfinished
      rcases sound.reaped place with gone | gone <;> rw [gone] <;> rfl
  | failed =>
      apply child_moves s sound (by rw [place]; rfl)
      by_contra gone
      exact unfinished ⟨.inr place, by simpa using gone⟩

theorem run_progress (few : inherited.length + 2 < 2 ^ 31) :
    Progress (system inherited cbuf text) (fun _ => false) State.Ended State.work := by
  apply progress_busy
  · exact fun before event after _ next => step_spends before after event next
  · exact fun s run unfinished => moves s (run_sound s few run) unfinished

end Steps

section Guarantees
variable [DecidableEq Inherited]

def streams : Table Nat := [some 0, some 1, some 2]

/-- No interleaving blocks. Only where descriptor 1 was closed before, and the socket has
got its number, can the child be killed. Where the file could not be opened, the child
calls `write` with the count -1, which fails, and exits like the parent. -/
theorem passing_ends (inherited : Table Inherited) (few : inherited.length + 2 < 2 ^ 31) (cbuf : Memory)
    (text : Option (List Char)) :
    (∀ events after, Path (system inherited cbuf text) (initial inherited) events after →
      events.length ≤ 13) ∧
    ∀ s, Run inherited cbuf text s → (∀ event after, ¬ Step inherited cbuf text s event after) →
      if text.isSome then
        s.parent = .exited ∧ (s.child = .exited ∨ (s.child = .killed ∧ lookup inherited 1 = none))
      else s.parent = .failed ∧ s.child = .exited ∧ s.output = [] := by
  constructor
  · intro events after path
    have bound := busy_bounded (run_progress few) _ _ _ (.start rfl) path
    have whole : (initial inherited).work = 13 := rfl
    omega
  · intro s run stuck
    have sound := run_sound s few run
    have dead : s.child.alive = false → s.child = .exited ∨ s.child = .killed := by
      cases s.child <;> simp [Child.alive]
    have ended := busy_stuck (run_progress few) s run stuck
    cases openable : text with
    | none =>
        have missing : text.isSome = false := by rw [openable]; rfl
        have output := sound.child.output
        rcases ended with ⟨left | left, gone⟩
        · have sent := sound.parent.opened (.inr (by rw [left]; rfl))
          rw [missing] at sent
          contradiction
        · rcases dead gone with exited | killed
          · refine ⟨left, exited, ?_⟩
            rw [output, openable]
            split <;> rfl
          · rw [(sound.child.killed killed).2] at missing
            contradiction
    | some contents =>
        rcases ended with ⟨left | left, gone⟩
        · rcases dead gone with exited | killed
          · exact ⟨left, .inl exited⟩
          · exact ⟨left, .inr ⟨killed, (sound.child.killed killed).1⟩⟩
        · rw [sound.parent.failed left] at openable
          contradiction

theorem passing_ends_missing : ∃ s, Run streams (fun _ => 0) none s ∧
    s.parent = .failed ∧ s.child = .exited := by
  obtain ⟨_, s, path, stuck⟩ := work_stops (system streams (fun _ => 0) none) State.work
    (fun before event after => step_spends before after event) (initial streams)
  have run := path_reachable _ _ _ _ (.start rfl) path
  have ended := (passing_ends streams (by decide) (fun _ => 0) none).2 s run stuck
  exact ⟨s, run, ended.1, ended.2.1⟩

end Guarantees

end LinuxMemory.DescriptorPassing
