import LinuxMemory.PipeRelay

/-!
The named pipe of `10_ipc_memory/03_fifo.c` from the return of `fork` on. Opening
either end counts an arrival and blocks until the other end is open or has been opened
since; the kernel keeps a counter for each end so that an opener that comes and goes is
not missed. The message is any that is not empty; one of more than `PIPE_BUF` bytes may
enter the pipe in pieces, and the child reads only once. Descriptor 1 takes what is written.
-/

namespace LinuxMemory.NamedPipe

open PipeRelay (Limits linux)
open Transition

variable {Byte : Type}

/-- `rCounter` and `wCounter` count how often either end has been opened so far; `linked`
says that the name is in its directory. -/
structure Fifo (Byte : Type) where
  bytes : List Byte
  readers : Nat
  writers : Nat
  rCounter : Nat
  wCounter : Nat
  linked : Bool

-- `opening` keeps the counter that `open` has found; `waiting` is in `waitpid`, after `close(fd)`
inductive Parent where
  | forked
  | opening (seen : Nat)
  | writing
  | sent
  | waiting
  | reaped
  | finished
  | killed

-- `holding` has read but not yet written to descriptor 1, and the `open` of `lost` has failed
inductive Child (Byte : Type) where
  | forked
  | opening (seen : Nat)
  | opened
  | holding (buf : List Byte)
  | written
  | exited
  | lost

/-- `written` is how much of the message is in the pipe, or has been there. -/
structure State (Byte : Type) where
  fifo : Fifo Byte
  written : Nat
  parent : Parent
  child : Child Byte
  output : List Byte

inductive Event where
  | parentOpens | parentAdmitted | writes (k : Nat) | returns | sigpipe | parentCloses | waited | unlinks
  | childOpens | childMisses | childAdmitted | reads | eof | echo | childCloses

def bufSize : Nat := 64

inductive Step (limits : Limits) (message : List Byte) : State Byte → Event → State Byte → Prop where
  | parentOpens {s : State Byte} (here : s.parent = .forked) :
      Step limits message s .parentOpens { s with
        fifo := { s.fifo with writers := s.fifo.writers + 1, wCounter := s.fifo.wCounter + 1 }
        parent := if s.fifo.readers = 0 then .opening s.fifo.rCounter else .writing }
  | parentAdmitted {s : State Byte} {seen : Nat} (here : s.parent = .opening seen)
      (came : s.fifo.rCounter ≠ seen) :
      Step limits message s .parentAdmitted { s with parent := .writing }
  | writes {s : State Byte} {k : Nat} (here : s.parent = .writing) (more : 0 < k)
      (whole : s.written + k ≤ message.length) (room : s.fifo.bytes.length + k ≤ limits.capacity)
      (reader : s.fifo.readers ≠ 0)
      (atomic : message.length ≤ limits.pipeBuf → s.written + k = message.length) :
      Step limits message s (.writes k) { s with
        fifo := { s.fifo with bytes := s.fifo.bytes ++ (message.drop s.written).take k }
        written := s.written + k }
  | returns {s : State Byte} (here : s.parent = .writing) (all : s.written = message.length) :
      Step limits message s .returns { s with parent := .sent }
  | sigpipe {s : State Byte} (here : s.parent = .writing) (more : s.written < message.length)
      (unread : s.fifo.readers = 0) :
      Step limits message s .sigpipe { s with
        fifo := { s.fifo with writers := s.fifo.writers - 1 }, parent := .killed }
  | parentCloses {s : State Byte} (here : s.parent = .sent) :
      Step limits message s .parentCloses { s with
        fifo := { s.fifo with writers := s.fifo.writers - 1 }, parent := .waiting }
  | waited {s : State Byte} (here : s.parent = .waiting) (ended : s.child = .exited) :
      Step limits message s .waited { s with parent := .reaped }
  | unlinks {s : State Byte} (here : s.parent = .reaped) :
      Step limits message s .unlinks { s with fifo := { s.fifo with linked := false }, parent := .finished }
  | childOpens {s : State Byte} (here : s.child = .forked) (there : s.fifo.linked = true) :
      Step limits message s .childOpens { s with
        fifo := { s.fifo with readers := s.fifo.readers + 1, rCounter := s.fifo.rCounter + 1 }
        child := if s.fifo.writers = 0 then .opening s.fifo.wCounter else .opened }
  | childMisses {s : State Byte} (here : s.child = .forked) (gone : s.fifo.linked = false) :
      Step limits message s .childMisses { s with child := .lost }
  | childAdmitted {s : State Byte} {seen : Nat} (here : s.child = .opening seen)
      (came : s.fifo.wCounter ≠ seen) :
      Step limits message s .childAdmitted { s with child := .opened }
  | reads {s : State Byte} (here : s.child = .opened) (there : s.fifo.bytes ≠ []) :
      Step limits message s .reads { s with
        fifo := { s.fifo with bytes := s.fifo.bytes.drop bufSize }
        child := .holding (s.fifo.bytes.take bufSize) }
  | eof {s : State Byte} (here : s.child = .opened) (empty : s.fifo.bytes = [])
      (closed : s.fifo.writers = 0) : Step limits message s .eof { s with child := .holding [] }
  | echo {s : State Byte} {buf : List Byte} (here : s.child = .holding buf) :
      Step limits message s .echo { s with child := .written, output := s.output ++ buf }
  | childCloses {s : State Byte} (here : s.child = .written) :
      Step limits message s .childCloses { s with
        fifo := { s.fifo with readers := s.fifo.readers - 1 }, child := .exited }

def initial : State Byte := ⟨⟨[], 0, 0, 0, 0, true⟩, 0, .forked, .forked, []⟩

def system (limits : Limits) (message : List Byte) : System (State Byte) Event :=
  ⟨(· = initial), Step limits message⟩

abbrev Run (limits : Limits) (message : List Byte) : State Byte → Prop := Reachable (system limits message)

def helloFifo : List Char := "hello fifo\n".toList

/-! What every step keeps. -/

def Parent.arrived : Parent → Nat
  | .forked => 0
  | _ => 1

def Parent.ends : Parent → Nat
  | .opening _ | .writing | .sent => 1
  | _ => 0

def Parent.isPast : Parent → Bool
  | .forked | .opening _ => false
  | _ => true

def Parent.hasSent : Parent → Bool
  | .sent | .waiting | .reaped | .finished => true
  | _ => false

def Child.arrived : Child Byte → Nat
  | .forked | .lost => 0
  | _ => 1

def Child.ends : Child Byte → Nat
  | .opening _ | .opened | .holding _ | .written => 1
  | _ => 0

def Child.isPast : Child Byte → Bool
  | .forked | .opening _ => false
  | _ => true

def Child.hasRead : Child Byte → Bool
  | .holding _ | .written | .exited => true
  | _ => false

def State.taken (s : State Byte) : List Byte :=
  match s.child with
  | .holding buf => buf
  | _ => s.output

structure Met (s : State Byte) : Prop where
  readers : s.fifo.readers = s.child.ends
  writers : s.fifo.writers = s.parent.ends
  rCounter : s.fifo.rCounter = s.child.arrived
  wCounter : s.fifo.wCounter = s.parent.arrived
  parentSeen : ∀ seen, s.parent = .opening seen → seen = 0
  childSeen : ∀ seen, s.child = .opening seen → seen = 0
  parentPast : s.parent.isPast = true → s.child.arrived = 1
  childPast : s.child.isPast = true → s.parent.arrived = 1

structure Carried (limits : Limits) (message : List Byte) (s : State Byte) : Prop where
  met : Met s
  apart : s.taken ++ s.fifo.bytes = message.take s.written
  few : s.taken.length ≤ bufSize
  took : s.taken ≠ [] ↔ s.child.hasRead = true
  silent : ∀ buf, s.child = .holding buf → s.output = []
  full : s.child.hasRead = true → message.length ≤ limits.pipeBuf → s.taken = message.take bufSize
  room : s.fifo.bytes.length ≤ limits.capacity
  within : s.written ≤ message.length
  atomic : message.length ≤ limits.pipeBuf → s.written = 0 ∨ s.written = message.length
  sent : s.parent.hasSent = true → s.written = message.length
  linked : s.fifo.linked = true ∨ s.parent = .finished
  reaped : s.parent = .reaped ∨ s.parent = .finished → s.child = .exited
  harmed : s.parent = .killed → s.child = .exited ∧ limits.pipeBuf < message.length
  found : s.child ≠ .lost

section Steps
variable {limits : Limits} {message : List Byte} {before after s t : State Byte} {event : Event}

theorem taken_start (carried : Carried limits message s) : s.taken = [] ∨ s.written ≠ 0 := by
  by_cases none : s.written = 0
  · have apart := carried.apart
    rw [none, List.take_zero] at apart
    exact .inl (List.append_eq_nil_iff.1 apart).1
  · exact .inr none

theorem reader_gone (carried : Carried limits message s) (here : s.parent = .writing)
    (unread : s.fifo.readers = 0) : s.child = .exited := by
  have arrived := carried.met.parentPast (by rw [here]; rfl)
  rw [carried.met.readers] at unread
  cases place : s.child with
  | forked | lost => rw [place] at arrived; contradiction
  | opening _ | opened | holding _ | written => rw [place] at unread; contradiction
  | exited => rfl

theorem name_there (carried : Carried limits message s) (here : s.child = .forked) : s.fifo.linked = true := by
  rcases carried.linked with there | finished
  · exact there
  · have exited := carried.reaped (.inr finished)
    rw [here] at exited
    contradiction

theorem taken_output (quiet : ∀ buf, s.child ≠ .holding buf) : s.taken = s.output := by
  unfold State.taken
  cases place : s.child with
  | holding buf => exact absurd place (quiet buf)
  | _ => rfl

/-- While the child runs, the parent has not got past its `waitpid`. -/
theorem parent_waits (carried : Carried limits message s) (alive : s.child ≠ .exited) :
    ¬ (s.parent = .reaped ∨ s.parent = .finished) ∧ s.parent ≠ .killed :=
  ⟨fun gone => alive (carried.reaped gone), fun gone => alive (carried.harmed gone).1⟩

theorem taken_opened (carried : Carried limits message s) (here : s.child = .opened) : s.taken = [] := by
  have took := carried.took
  rw [here] at took
  simpa [Child.hasRead] using took

/-- An empty pipe has a writer when the child reads. -/
theorem writer_there (carried : Carried limits message s) (nonempty : message ≠ []) (here : s.child = .opened)
    (empty : s.fifo.bytes = []) : s.fifo.writers ≠ 0 := by
  have arrived := carried.met.childPast (by rw [here]; rfl)
  have apart := carried.apart
  rw [taken_opened carried here, empty] at apart
  have unsent : s.parent.hasSent = false := by
    by_contra sent
    rw [carried.sent (by simpa using sent), List.take_length] at apart
    exact nonempty apart.symm
  rw [carried.met.writers]
  cases place : s.parent with
  | forked => rw [place] at arrived; contradiction
  | opening _ | writing | sent => exact Nat.one_ne_zero
  | waiting | reaped | finished => rw [place] at unsent; contradiction
  | killed =>
      have exited := (carried.harmed place).1
      rw [here] at exited
      contradiction

theorem met_parent (met : Met s) (child : t.child = s.child) (readers : t.fifo.readers = s.fifo.readers)
    (rCounter : t.fifo.rCounter = s.fifo.rCounter) (writers : t.fifo.writers = t.parent.ends)
    (wCounter : t.fifo.wCounter = t.parent.arrived) (arrived : t.parent.arrived = 1)
    (seen : ∀ seen, t.parent = .opening seen → seen = 0)
    (isPast : t.parent.isPast = true → s.child.arrived = 1) : Met t := by
  refine ⟨?_, writers, ?_, wCounter, seen, ?_, ?_, fun _ => arrived⟩
  · rw [readers, child, met.readers]
  · rw [rCounter, child, met.rCounter]
  · rw [child]
    exact met.childSeen
  · rw [child]
    exact isPast

theorem met_child (met : Met s) (parent : t.parent = s.parent) (writers : t.fifo.writers = s.fifo.writers)
    (wCounter : t.fifo.wCounter = s.fifo.wCounter) (readers : t.fifo.readers = t.child.ends)
    (rCounter : t.fifo.rCounter = t.child.arrived) (arrived : t.child.arrived = 1)
    (seen : ∀ seen, t.child = .opening seen → seen = 0)
    (isPast : t.child.isPast = true → s.parent.arrived = 1) : Met t := by
  refine ⟨readers, ?_, rCounter, ?_, ?_, seen, fun _ => arrived, ?_⟩
  · rw [writers, parent, met.writers]
  · rw [wCounter, parent, met.wCounter]
  · rw [parent]
    exact met.parentSeen
  · rw [parent]
    exact isPast

theorem no_reader_yet (met : Met s) (here : s.parent = .forked) (alone : s.fifo.readers = 0) :
    s.fifo.rCounter = 0 := by
  have isPast := met.childPast
  rw [here] at isPast
  rw [met.readers] at alone
  rw [met.rCounter]
  cases place : s.child with
  | forked => rfl
  | opening _ => rw [place] at alone; contradiction
  | _ => rw [place] at isPast; exact absurd (isPast rfl) Nat.zero_ne_one

theorem no_writer_yet (met : Met s) (here : s.child = .forked) (alone : s.fifo.writers = 0) :
    s.fifo.wCounter = 0 := by
  have isPast := met.parentPast
  rw [here] at isPast
  rw [met.writers] at alone
  rw [met.wCounter]
  cases place : s.parent with
  | forked => rfl
  | opening _ => rw [place] at alone; contradiction
  | _ => rw [place] at isPast; exact absurd (isPast rfl) Nat.zero_ne_one

theorem child_arrived (met : Met s) (present : s.fifo.readers ≠ 0 ∨ s.fifo.rCounter ≠ 0) :
    s.child.arrived = 1 := by
  rw [met.readers, met.rCounter] at present
  cases place : s.child with
  | forked | lost => rw [place] at present; exact absurd rfl (or_self_iff.mp present)
  | _ => rfl

theorem parent_arrived (met : Met s) (present : s.fifo.writers ≠ 0 ∨ s.fifo.wCounter ≠ 0) :
    s.parent.arrived = 1 := by
  rw [met.writers, met.wCounter] at present
  cases place : s.parent with
  | forked => rw [place] at present; exact absurd rfl (or_self_iff.mp present)
  | _ => rfl

theorem met_step (carried : Carried limits message before) (nonempty : message ≠ [])
    (next : Step limits message before event after) : Met after := by
  have met := carried.met
  have writers := met.writers
  have readers := met.readers
  have wCounter := met.wCounter
  have rCounter := met.rCounter
  have parentPast := met.parentPast
  have childPast := met.childPast
  cases next with
  | parentOpens here =>
      rw [here] at writers wCounter
      by_cases alone : before.fifo.readers = 0
      · rw [if_pos alone, no_reader_yet met here alone]
        exact met_parent met rfl rfl rfl (congrArg (· + 1) writers) (congrArg (· + 1) wCounter) rfl
          (fun seen same => (Parent.opening.inj same).symm) (fun none => absurd none Bool.false_ne_true)
      · rw [if_neg alone]
        exact met_parent met rfl rfl rfl (congrArg (· + 1) writers) (congrArg (· + 1) wCounter) rfl
          (by simp) (fun _ => child_arrived met (.inl alone))
  | @parentAdmitted seen here came =>
      have zero := met.parentSeen seen here
      rw [here] at writers wCounter
      exact met_parent met rfl rfl rfl writers wCounter rfl (by simp)
        (fun _ => child_arrived met (.inr (zero ▸ came)))
  | writes here more whole room reader atomic =>
      exact met_parent met rfl rfl rfl writers wCounter (by rw [here]; rfl) met.parentSeen parentPast
  | returns here all =>
      rw [here] at writers wCounter parentPast
      exact met_parent met rfl rfl rfl writers wCounter rfl (by simp) (fun _ => parentPast rfl)
  | sigpipe here more unread =>
      rw [here] at writers wCounter parentPast
      exact met_parent met rfl rfl rfl (congrArg (· - 1) writers) wCounter rfl (by simp) (fun _ => parentPast rfl)
  | parentCloses here =>
      rw [here] at writers wCounter parentPast
      exact met_parent met rfl rfl rfl (congrArg (· - 1) writers) wCounter rfl (by simp)
        (fun _ => parentPast rfl)
  | waited here ended | unlinks here =>
      rw [here] at writers wCounter parentPast
      exact met_parent met rfl rfl rfl writers wCounter rfl (by simp) (fun _ => parentPast rfl)
  | childOpens here there =>
      rw [here] at readers rCounter
      by_cases alone : before.fifo.writers = 0
      · rw [if_pos alone, no_writer_yet met here alone]
        exact met_child met rfl rfl rfl (congrArg (· + 1) readers) (congrArg (· + 1) rCounter) rfl
          (fun seen same => (Child.opening.inj same).symm) (fun none => absurd none Bool.false_ne_true)
      · rw [if_neg alone]
        exact met_child met rfl rfl rfl (congrArg (· + 1) readers) (congrArg (· + 1) rCounter) rfl
          (by simp) (fun _ => parent_arrived met (.inl alone))
  | childMisses here gone =>
      rw [name_there carried here] at gone
      contradiction
  | @childAdmitted seen here came =>
      have zero := met.childSeen seen here
      rw [here] at readers rCounter
      exact met_child met rfl rfl rfl readers rCounter rfl (by simp)
        (fun _ => parent_arrived met (.inr (zero ▸ came)))
  | eof here empty closed => exact absurd closed (writer_there carried nonempty here empty)
  | reads here there | echo here =>
      rw [here] at readers rCounter childPast
      exact met_child met rfl rfl rfl readers rCounter rfl (by simp) (fun _ => childPast rfl)
  | childCloses here =>
      rw [here] at readers rCounter childPast
      exact met_child met rfl rfl rfl (congrArg (· - 1) readers) rCounter rfl (by simp)
        (fun _ => childPast rfl)

theorem carried_parent (carried : Carried limits message s) (met : Met t) (child : t.child = s.child)
    (output : t.output = s.output) (bytes : t.fifo.bytes = s.fifo.bytes) (written : t.written = s.written)
    (sent : t.parent.hasSent = true → s.written = message.length)
    (linked : t.fifo.linked = true ∨ t.parent = .finished)
    (reaped : t.parent = .reaped ∨ t.parent = .finished → s.child = .exited)
    (harmed : t.parent = .killed → s.child = .exited ∧ limits.pipeBuf < message.length) :
    Carried limits message t := by
  have taken : t.taken = s.taken := by
    unfold State.taken
    rw [child, output]
  obtain ⟨_, apart, few, took, silent, full, room, within, atomic, _, _, _, _, found⟩ := carried
  rw [← taken, ← bytes, ← written] at apart
  rw [← taken] at few took full
  rw [← child] at took silent full reaped harmed found
  rw [← output] at silent
  rw [← bytes] at room
  rw [← written] at within atomic sent
  exact ⟨met, apart, few, took, silent, full, room, within, atomic, sent, linked, reaped, harmed, found⟩

theorem carried_child (carried : Carried limits message s) (met : Met t) (parent : t.parent = s.parent)
    (alive : s.child ≠ .exited) (bytes : t.fifo.bytes = s.fifo.bytes) (written : t.written = s.written)
    (linked : t.fifo.linked = s.fifo.linked) (taken : t.taken = s.taken)
    (hasRead : t.child.hasRead = s.child.hasRead) (silent : ∀ buf, t.child = .holding buf → t.output = [])
    (found : t.child ≠ .lost) : Carried limits message t := by
  obtain ⟨early, unharmed⟩ := parent_waits carried alive
  obtain ⟨_, apart, few, took, _, full, room, within, atomic, sent, there, _, _, _⟩ := carried
  rw [← taken, ← bytes, ← written] at apart
  rw [← taken] at few
  rw [← taken, ← hasRead] at took full
  rw [← bytes] at room
  rw [← written] at within atomic
  rw [← parent, ← written] at sent
  rw [← linked, ← parent] at there
  rw [← parent] at early unharmed
  exact ⟨met, apart, few, took, silent, full, room, within, atomic, sent, there,
    fun gone => absurd gone early, fun gone => absurd gone unharmed, found⟩

theorem carried_step (carried : Carried limits message before) (nonempty : message ≠ [])
    (next : Step limits message before event after) : Carried limits message after := by
  have met := met_step carried nonempty next
  have linked := carried.linked
  have sent := carried.sent
  cases next with
  | parentOpens here =>
      rw [here] at linked sent
      have there := linked.resolve_right (by simp)
      by_cases alone : before.fifo.readers = 0
      · rw [if_pos alone] at met ⊢
        exact carried_parent carried met rfl rfl rfl rfl sent (.inl there) (by simp) (by simp)
      · rw [if_neg alone] at met ⊢
        exact carried_parent carried met rfl rfl rfl rfl sent (.inl there) (by simp) (by simp)
  | parentAdmitted here came =>
      rw [here] at linked sent
      have there := linked.resolve_right (by simp)
      exact carried_parent carried met rfl rfl rfl rfl sent (.inl there) (by simp) (by simp)
  | @writes k here more whole room reader atomic =>
      have early : ¬ (before.parent = .reaped ∨ before.parent = .finished) := by simp [here]
      obtain ⟨_, apart, few, took, silent, full, _, _, _, _, _, _, _, found⟩ := carried
      refine ⟨met, ?_, few, took, silent, full, ?_, whole, fun small => .inr (atomic small), ?_, linked,
        fun gone => absurd gone early, ?_, found⟩
      · show before.taken ++ (before.fifo.bytes ++ (message.drop before.written).take k) =
          message.take (before.written + k)
        rw [← List.append_assoc, apart, List.take_add]
      · show (before.fifo.bytes ++ (message.drop before.written).take k).length ≤ limits.capacity
        rw [List.length_append, List.length_take]
        omega
      · intro gone
        rw [here] at gone
        contradiction
      · intro gone
        rw [here] at gone
        contradiction
  | returns here all =>
      rw [here] at linked
      have there := linked.resolve_right (by simp)
      exact carried_parent carried met rfl rfl rfl rfl (fun _ => all) (.inl there) (by simp) (by simp)
  | sigpipe here more unread =>
      have exited := reader_gone carried here unread
      have took := carried.took.2 (by rw [exited]; rfl)
      have begun := (taken_start carried).resolve_left took
      have long : limits.pipeBuf < message.length := by
        by_contra small
        rcases carried.atomic (by omega) with none | all <;> omega
      rw [here] at linked
      have there := linked.resolve_right (by simp)
      exact carried_parent carried met rfl rfl rfl rfl (by simp [Parent.hasSent]) (.inl there) (by simp)
        (fun _ => ⟨exited, long⟩)
  | parentCloses here =>
      rw [here] at linked sent
      have there := linked.resolve_right (by simp)
      exact carried_parent carried met rfl rfl rfl rfl sent (.inl there) (by simp) (by simp)
  | waited here ended =>
      rw [here] at linked sent
      have there := linked.resolve_right (by simp)
      exact carried_parent carried met rfl rfl rfl rfl sent (.inl there) (fun _ => ended) (by simp)
  | unlinks here =>
      have ended := carried.reaped (.inl here)
      rw [here] at sent
      exact carried_parent carried met rfl rfl rfl rfl sent (.inr rfl) (fun _ => ended) (by simp)
  | childOpens here there =>
      have taken : before.taken = before.output := taken_output (by simp [here])
      by_cases alone : before.fifo.writers = 0
      · rw [if_pos alone] at met ⊢
        exact carried_child carried met rfl (by simp [here]) rfl rfl rfl taken.symm (by rw [here]; rfl) (by simp)
          (by simp)
      · rw [if_neg alone] at met ⊢
        exact carried_child carried met rfl (by simp [here]) rfl rfl rfl taken.symm (by rw [here]; rfl) (by simp)
          (by simp)
  | childMisses here gone =>
      rw [name_there carried here] at gone
      contradiction
  | childAdmitted here came =>
      have taken : before.taken = before.output := taken_output (by simp [here])
      exact carried_child carried met rfl (by simp [here]) rfl rfl rfl taken.symm (by rw [here]; rfl) (by simp)
        (by simp)
  | reads here there =>
      have untaken := taken_opened carried here
      have output : before.output = [] := (taken_output (by simp [here])).symm.trans untaken
      obtain ⟨early, unharmed⟩ := parent_waits carried (by simp [here])
      obtain ⟨_, apart, _, _, _, _, room, within, atomic, _, _, _, _, _⟩ := carried
      rw [untaken, List.nil_append] at apart
      refine ⟨met, ?_, ?_, ?_, fun _ _ => output, ?_, ?_, within, atomic, sent, linked,
        fun gone => absurd gone early, fun gone => absurd gone unharmed, by simp⟩
      · exact (List.take_append_drop bufSize _).trans apart
      · exact List.length_take_le _ _
      · refine ⟨fun _ => rfl, fun _ none => there ?_⟩
        rcases List.take_eq_nil_iff.1 none with zero | empty
        · contradiction
        · exact empty
      · intro _ small
        have whole : before.written = message.length := by
          refine (atomic small).resolve_left (fun none => there ?_)
          rw [apart, none, List.take_zero]
        show before.fifo.bytes.take bufSize = message.take bufSize
        rw [apart, whole, List.take_length]
      · show (before.fifo.bytes.drop bufSize).length ≤ limits.capacity
        rw [List.length_drop]
        omega
  | eof here empty closed => exact absurd closed (writer_there carried nonempty here empty)
  | @echo buf here =>
      have silent := carried.silent buf here
      have taken : before.taken = buf := by
        unfold State.taken
        rw [here]
      refine carried_child carried met rfl (by simp [here]) rfl rfl rfl ?_ (by rw [here]; rfl) (by simp) (by simp)
      show before.output ++ buf = before.taken
      rw [silent, taken, List.nil_append]
  | childCloses here =>
      have taken : before.taken = before.output := taken_output (by simp [here])
      exact carried_child carried met rfl (by simp [here]) rfl rfl rfl taken.symm (by rw [here]; rfl) (by simp)
        (by simp)

theorem run_carried (nonempty : message ≠ []) (s : State Byte) (run : Run limits message s) :
    Carried limits message s := by
  apply reachable_invariant (system limits message) (Carried limits message) _ _ s run
  · rintro first rfl
    exact ⟨⟨rfl, rfl, rfl, rfl, by simp [initial], by simp [initial],
      fun none => absurd none Bool.false_ne_true, fun none => absurd none Bool.false_ne_true⟩,
      rfl, Nat.zero_le _, by simp [initial, State.taken, Child.hasRead], by simp [initial],
      fun none => absurd none Bool.false_ne_true, Nat.zero_le _, Nat.zero_le _, fun _ => .inl rfl,
      fun none => absurd none Bool.false_ne_true, .inl rfl, by simp [initial], by simp [initial],
      by simp [initial]⟩
  · exact fun before event after carried next => carried_step carried nonempty next

/-! Every run ends. -/

def Parent.work (rest : Nat) : Parent → Nat
  | .forked => rest + 7
  | .opening _ => rest + 6
  | .writing => rest + 5
  | .sent => 4
  | .waiting => 3
  | .reaped => 2
  | .finished | .killed => 0

def Child.work : Child Byte → Nat
  | .forked => 6
  | .opening _ => 5
  | .opened => 4
  | .holding _ => 3
  | .written => 2
  | .exited | .lost => 0

def State.work (message : List Byte) (s : State Byte) : Nat :=
  s.parent.work (message.length - s.written) + s.child.work

def State.Ended (s : State Byte) : Prop :=
  s.child = .exited ∧ (s.parent = .finished ∨ s.parent = .killed)

theorem step_spends (next : Step limits message before event after) :
    after.work message < before.work message := by
  unfold State.work
  cases next with
  | parentOpens here =>
      dsimp only
      split <;> simp [here, Parent.work]
  | childOpens here there =>
      dsimp only
      split <;> simp [here, Child.work]
  | writes here more whole =>
      simp only [here, Parent.work]
      omega
  | parentAdmitted here | returns here | sigpipe here | parentCloses here | waited here | unlinks here =>
      simp only [here, Parent.work]
      omega
  | childMisses here | childAdmitted here | reads here | eof here | echo here | childCloses here =>
      simp [here, Child.work]

theorem child_moves (carried : Carried limits message s) (unfinished : s.child ≠ .exited)
    (admitted : ∀ seen, s.child = .opening seen → s.parent.arrived = 1)
    (served : s.child = .opened → s.fifo.bytes ≠ []) :
    ∃ event after, Step limits message s event after := by
  cases place : s.child with
  | exited => exact absurd place unfinished
  | lost => exact absurd place carried.found
  | forked => exact ⟨_, _, .childOpens place (name_there carried place)⟩
  | opening seen =>
      refine ⟨_, _, .childAdmitted place ?_⟩
      rw [carried.met.wCounter, admitted seen place, carried.met.childSeen seen place]
      exact Nat.one_ne_zero
  | opened => exact ⟨_, _, .reads place (served place)⟩
  | holding buf => exact ⟨_, _, .echo place⟩
  | written => exact ⟨_, _, .childCloses place⟩

/-- In its `write` the parent goes on or is killed, unless the pipe is full; then the
child goes on. -/
theorem writing_moves (carried : Carried limits message s) (here : s.parent = .writing) :
    ∃ event after, Step limits message s event after := by
  have within := carried.within
  have positive := limits.positive
  have fits := limits.fits
  by_cases all : s.written = message.length
  · exact ⟨_, _, .returns here all⟩
  · by_cases unread : s.fifo.readers = 0
    · exact ⟨_, _, .sigpipe here (by omega) unread⟩
    · by_cases small : message.length ≤ limits.pipeBuf
      · have unsent := (carried.atomic small).resolve_right all
        have empty : s.fifo.bytes = [] := by
          have apart := carried.apart
          rw [unsent, List.take_zero] at apart
          exact (List.append_eq_nil_iff.1 apart).2
        refine ⟨_, _, .writes (k := message.length - s.written) here (by omega) (by omega) ?_ unread
          (by omega)⟩
        rw [empty, List.length_nil]
        omega
      · by_cases full : s.fifo.bytes.length < limits.capacity
        · exact ⟨_, _, .writes (k := 1) here (by decide) (by omega) full unread
            (fun short => absurd short small)⟩
        · apply child_moves carried
          · intro exited
            rw [carried.met.readers, exited] at unread
            exact unread rfl
          · exact fun _ _ => by rw [here]; rfl
          · intro _ empty
            rw [empty, List.length_nil] at full
            omega

theorem moves (carried : Carried limits message s) (nonempty : message ≠ []) (unfinished : ¬ s.Ended) :
    ∃ event after, Step limits message s event after := by
  cases place : s.parent with
  | finished => exact absurd ⟨carried.reaped (.inr place), .inl place⟩ unfinished
  | killed => exact absurd ⟨(carried.harmed place).1, .inr place⟩ unfinished
  | forked => exact ⟨_, _, .parentOpens place⟩
  | opening seen =>
      by_cases came : s.child.arrived = 1
      · refine ⟨_, _, .parentAdmitted place ?_⟩
        rw [carried.met.rCounter, came, carried.met.parentSeen seen place]
        exact Nat.one_ne_zero
      · -- nobody has opened the other end yet, so the child still has to
        cases there : s.child with
        | forked => exact ⟨_, _, .childOpens there (name_there carried there)⟩
        | lost => exact absurd there carried.found
        | _ => rw [there] at came; exact absurd rfl came
  | writing => exact writing_moves carried place
  | sent => exact ⟨_, _, .parentCloses place⟩
  | waiting =>
      by_cases ended : s.child = .exited
      · exact ⟨_, _, .waited place ended⟩
      · apply child_moves carried ended (fun _ _ => by rw [place]; rfl)
        intro opened empty
        have apart := carried.apart
        rw [taken_opened carried opened, empty, carried.sent (by rw [place]; rfl), List.take_length] at apart
        exact nonempty apart.symm
  | reaped => exact ⟨_, _, .unlinks place⟩

theorem run_progress (nonempty : message ≠ []) :
    Progress (system limits message) (fun _ => false) State.Ended (State.work message) := by
  apply progress_busy
  · exact fun _ _ _ _ next => step_spends next
  · exact fun s run unfinished => moves (run_carried nonempty s run) nonempty unfinished

theorem output_taken (carried : Carried limits message s) :
    ∃ n ≤ bufSize, s.output = message.take n := by
  have taken : s.output = [] ∨ s.output = s.taken := by
    cases place : s.child with
    | holding buf => exact .inl (carried.silent buf place)
    | _ => exact .inr (by simp only [State.taken, place])
  rcases taken with empty | whole
  · exact ⟨0, Nat.zero_le _, empty⟩
  · refine ⟨s.output.length, whole ▸ carried.few, ?_⟩
    have front : s.output <+: message := by
      rw [whole]
      exact (List.prefix_append _ _).trans (carried.apart ▸ List.take_prefix _ _)
    exact List.prefix_iff_eq_take.1 front

end Steps

/-- In every interleaving the two opens meet, and the child prints the beginning of the
message, once. A message of up to `PIPE_BUF` bytes goes through, and the child prints what
fits its buffer; a longer one may find the reader gone, which kills the parent and leaves
the name in its directory, and does so when it is longer than pipe and buffer together. -/
theorem fifo_delivers (limits : Limits) (message : List Byte) (nonempty : message ≠ []) (s : State Byte)
    (run : Run limits message s) :
    s.child ≠ .lost ∧ (∃ n ≤ bufSize, s.output = message.take n) ∧
    (s.parent = .killed → limits.pipeBuf < message.length ∧ s.fifo.linked = true) ∧
    (s.parent = .finished → s.child = .exited ∧ s.output ≠ [] ∧
      message.length ≤ limits.capacity + bufSize ∧
      (message.length ≤ limits.pipeBuf → s.output = message.take bufSize)) ∧
    (∀ events after, Path (system limits message) initial events after →
      events.length ≤ message.length + 13) ∧
    ((∀ event after, ¬ Step limits message s event after) →
      s.child = .exited ∧ (s.parent = .finished ∨ s.parent = .killed)) := by
  have carried := run_carried nonempty s run
  refine ⟨carried.found, output_taken carried, ?_, ?_, ?_, ?_⟩
  · intro gone
    refine ⟨(carried.harmed gone).2, carried.linked.resolve_right ?_⟩
    rw [gone]
    simp
  · intro finished
    have exited := carried.reaped (.inr finished)
    have taken : s.taken = s.output := taken_output (by simp [exited])
    have few := carried.few
    have room := carried.room
    have whole := congrArg List.length carried.apart
    rw [carried.sent (by rw [finished]; rfl), List.take_length, List.length_append] at whole
    refine ⟨exited, ?_, by omega, ?_⟩
    · rw [← taken]
      exact carried.took.2 (by rw [exited]; rfl)
    · rw [← taken]
      exact carried.full (by rw [exited]; rfl)
  · intro events after path
    have bounded := busy_bounded (run_progress nonempty) _ _ _ (.start rfl) path
    have begins : State.work message initial = message.length + 7 + 6 := rfl
    omega
  · exact busy_stuck (run_progress nonempty) s run

theorem fifo_delivers_hello : ∃ s, Run linux helloFifo s ∧ s.parent = .finished ∧ s.output = helloFifo := by
  have nonempty : helloFifo ≠ [] := by decide
  obtain ⟨_, s, path, _, ended⟩ := progress_finishes (@run_progress _ linux _ nonempty) initial (.start rfl)
  have run := path_reachable _ _ _ _ (.start rfl) path
  obtain ⟨_, _, harmed, delivered, _⟩ := fifo_delivers linux helloFifo nonempty s run
  rcases ended with finished | killed
  · obtain ⟨_, _, _, whole⟩ := delivered finished
    exact ⟨s, run, finished, (whole (by decide)).trans (by decide)⟩
  · exact absurd (harmed killed).1 (by decide)

end LinuxMemory.NamedPipe
