import Mathlib.Data.List.Basic
import LinuxMemory.Transition

/-!
A parent that writes its messages into a pipe, and a child that copies the pipe to
its standard output until end of file: `10_ipc_memory/01_pipe.c` and
`08_process_syscalls/08_pipe_fork.c` from the return of `fork` on. A read of an
empty pipe blocks while a write end is open anywhere and returns 0 afterwards; a
write kills the writer when no read end is open.
-/

namespace LinuxMemory.PipeRelay

open Transition

variable {Byte : Type}

/-- What fits into a pipe, and up to which size a write goes there in one piece. -/
structure Limits where
  capacity : Nat
  pipeBuf : Nat
  positive : 0 < pipeBuf
  fits : pipeBuf ≤ capacity

def linux : Limits := ⟨65536, 4096, by decide, by decide⟩

/-- The bytes in the pipe, and how many descriptors of the two processes refer to
either end. -/
structure Pipe (Byte : Type) where
  bytes : List Byte
  readers : Nat
  writers : Nat

inductive Parent (Byte : Type) where
  | forked (messages : List (List Byte))
  | ready (rest : List (List Byte))
  -- in `write`, with the first bytes of the message in the pipe already
  | writing (message : List Byte) (written : Nat) (rest : List (List Byte))
  | waiting
  | exited
  | killed

inductive Child (Byte : Type) where
  | forked
  | reading
  -- `buf` is read but not yet written to descriptor 1
  | holding (buf : List Byte)
  | finished
  | exited

structure State (Byte : Type) where
  pipe : Pipe Byte
  parent : Parent Byte
  child : Child Byte
  output : List Byte

inductive Event where
  | parentCloses
  | enter
  | write (k : Nat)
  | written
  | sigpipe
  | closes
  | waited
  | childCloses
  | read (n : Nat)
  | eof
  | echo
  | exit

def bufSize : Nat := 64

inductive Step (limits : Limits) : State Byte → Event → State Byte → Prop where
  | parentCloses {s : State Byte} {messages : List (List Byte)} (here : s.parent = .forked messages) :
      Step limits s .parentCloses
        { s with pipe := { s.pipe with readers := s.pipe.readers - 1 }, parent := .ready messages }
  | enter {s : State Byte} {message : List Byte} {rest : List (List Byte)}
      (here : s.parent = .ready (message :: rest)) :
      Step limits s .enter { s with parent := .writing message 0 rest }
  -- a longer message may enter the pipe in any pieces for which there is room
  | write {s : State Byte} {message : List Byte} {done k : Nat} {rest : List (List Byte)}
      (here : s.parent = .writing message done rest) (more : 0 < k) (whole : done + k ≤ message.length)
      (room : s.pipe.bytes.length + k ≤ limits.capacity) (reader : s.pipe.readers ≠ 0)
      (atomic : message.length ≤ limits.pipeBuf → done + k = message.length) :
      Step limits s (.write k)
        { s with pipe := { s.pipe with bytes := s.pipe.bytes ++ (message.drop done).take k },
                 parent := .writing message (done + k) rest }
  | written {s : State Byte} {message : List Byte} {rest : List (List Byte)}
      (here : s.parent = .writing message message.length rest) :
      Step limits s .written { s with parent := .ready rest }
  | sigpipe {s : State Byte} {message : List Byte} {done : Nat} {rest : List (List Byte)}
      (here : s.parent = .writing message done rest) (more : done < message.length)
      (unread : s.pipe.readers = 0) :
      Step limits s .sigpipe
        { s with pipe := { s.pipe with writers := s.pipe.writers - 1 }, parent := .killed }
  | closes {s : State Byte} (here : s.parent = .ready []) :
      Step limits s .closes
        { s with pipe := { s.pipe with writers := s.pipe.writers - 1 }, parent := .waiting }
  | waited {s : State Byte} (here : s.parent = .waiting) (stopped : s.child = .exited) :
      Step limits s .waited { s with parent := .exited }
  | childCloses {s : State Byte} (here : s.child = .forked) :
      Step limits s .childCloses
        { s with pipe := { s.pipe with writers := s.pipe.writers - 1 }, child := .reading }
  | read {s : State Byte} {n : Nat} (here : s.child = .reading) (more : 0 < n) (fits : n ≤ bufSize)
      (there : n ≤ s.pipe.bytes.length) :
      Step limits s (.read n)
        { s with pipe := { s.pipe with bytes := s.pipe.bytes.drop n },
                 child := .holding (s.pipe.bytes.take n) }
  | eof {s : State Byte} (here : s.child = .reading) (empty : s.pipe.bytes = [])
      (closed : s.pipe.writers = 0) :
      Step limits s .eof { s with child := .finished }
  | echo {s : State Byte} {buf : List Byte} (here : s.child = .holding buf) :
      Step limits s .echo { s with child := .reading, output := s.output ++ buf }
  -- `_exit` closes the read end, unless `close(fd[0])` has done so just before
  | exit {s : State Byte} (here : s.child = .finished) :
      Step limits s .exit
        { s with pipe := { s.pipe with readers := s.pipe.readers - 1 }, child := .exited }

def initial (messages : List (List Byte)) : State Byte := ⟨⟨[], 2, 2⟩, .forked messages, .forked, []⟩

def system (limits : Limits) (messages : List (List Byte)) : System (State Byte) Event :=
  ⟨(· = initial messages), Step limits⟩

abbrev Run (limits : Limits) (messages : List (List Byte)) : State Byte → Prop :=
  Reachable (system limits messages)

def records : List (List Char) :=
  (List.range 3).map fun i => "record ".toList ++ Nat.toDigits 10 i ++ "\n".toList

def msgs : List (List Char) := ["hello\n".toList, "from\n".toList, "parent\n".toList]

/-! Who holds what: the descriptors of either process and the bytes on their way. -/

def Parent.readEnds : Parent Byte → Nat
  | .forked _ => 1
  | _ => 0

def Parent.writeEnds : Parent Byte → Nat
  | .forked _ | .ready _ | .writing .. => 1
  | _ => 0

def Parent.unsent : Parent Byte → List Byte
  | .forked messages => messages.flatten
  | .ready rest => rest.flatten
  | .writing message done rest => message.drop done ++ rest.flatten
  | _ => []

def Child.readEnds : Child Byte → Nat
  | .exited => 0
  | _ => 1

def Child.writeEnds : Child Byte → Nat
  | .forked => 1
  | _ => 0

def Child.held : Child Byte → List Byte
  | .holding buf => buf
  | _ => []

def Child.ended : Child Byte → Bool
  | .finished | .exited => true
  | _ => false

def State.Finished (s : State Byte) : Prop := s.parent = .exited ∧ s.child = .exited

/-- What every step keeps. Each descriptor is accounted for, so that the child sees
the end of the file only after the parent has closed its write end. -/
structure Sound (messages : List (List Byte)) (s : State Byte) : Prop where
  conserved : s.output ++ s.child.held ++ s.pipe.bytes ++ s.parent.unsent = messages.flatten
  readers : s.pipe.readers = s.parent.readEnds + s.child.readEnds
  writers : s.pipe.writers = s.parent.writeEnds + s.child.writeEnds
  within : ∀ message done rest, s.parent = .writing message done rest → done ≤ message.length
  ended : s.child.ended = true → s.parent.writeEnds = 0 ∧ s.pipe.bytes = []
  alive : s.parent ≠ .killed
  last : s.parent = .exited → s.child = .exited

def Parent.work : Parent Byte → Nat
  | .forked messages => 3 * messages.flatten.length + 2 * messages.length + 3
  | .ready rest => 3 * rest.flatten.length + 2 * rest.length + 2
  | .writing message done rest => 3 * (message.drop done ++ rest.flatten).length + 2 * rest.length + 3
  | .waiting => 1
  | .exited | .killed => 0

def Child.work : Child Byte → Nat
  | .forked | .holding _ => 3
  | .reading => 2
  | .finished => 1
  | .exited => 0

def State.work (s : State Byte) : Nat := s.parent.work + 2 * s.pipe.bytes.length + s.child.work

section Steps
variable {limits : Limits} {messages : List (List Byte)}

theorem write_split (message : List Byte) (done k : Nat) :
    (message.drop done).take k ++ message.drop (done + k) = message.drop done := by
  rw [← List.drop_drop, List.take_append_drop]

theorem sound_step (before after : State Byte) (event : Event) (sound : Sound messages before)
    (next : Step limits before event after) : Sound messages after := by
  obtain ⟨conserved, readers, writers, within, ended, alive, last⟩ := sound
  cases next with
  | parentCloses here =>
      rw [here] at conserved readers writers ended
      simp only [Parent.readEnds, Parent.writeEnds, Parent.unsent] at conserved readers writers ended
      refine ⟨conserved, ?_, writers, by simp, ended, by simp, by simp⟩
      show before.pipe.readers - 1 = 0 + before.child.readEnds
      omega
  | @enter message rest here =>
      rw [here] at conserved readers writers ended
      refine ⟨?_, readers, writers, ?_, ended, by simp, by simp⟩
      · simpa [Parent.unsent] using conserved
      · rintro message' done rest' same
        cases same
        exact Nat.zero_le _
  | @write message done k rest here more whole room reader atomic =>
      rw [here] at conserved readers writers ended
      refine ⟨?_, readers, writers, ?_, ?_, by simp, by simp⟩
      · rw [← conserved]
        simp only [Parent.unsent, List.append_assoc]
        rw [← List.append_assoc (List.take k _), write_split]
      · rintro message' done' rest' same
        cases same
        exact whole
      · -- the child cannot have seen the end of the file: this write end is open
        intro stopped
        have closed := (ended stopped).1
        simp [Parent.writeEnds] at closed
  | written here =>
      rw [here] at conserved readers writers ended
      exact ⟨by simpa [Parent.unsent] using conserved, readers, writers, by simp, ended, by simp,
        by simp⟩
  | sigpipe here more unread =>
      -- without a read end the child is gone, so it has seen the end of the file
      exfalso
      rw [here] at readers ended
      have stopped : before.child.ended = true := by
        cases place : before.child with
        | exited => rfl
        | _ => simp [place, Child.readEnds] at readers; omega
      have closed := (ended stopped).1
      simp [Parent.writeEnds] at closed
  | closes here =>
      rw [here] at conserved readers writers ended
      refine ⟨conserved, readers, ?_, by simp, ?_, by simp, by simp⟩
      · simp only [Parent.writeEnds] at writers
        show before.pipe.writers - 1 = 0 + before.child.writeEnds
        omega
      · exact fun stopped => ⟨rfl, (ended stopped).2⟩
  | waited here stopped =>
      rw [here] at conserved readers writers ended
      exact ⟨conserved, readers, writers, by simp, ended, by simp, fun _ => stopped⟩
  | childCloses here =>
      rw [here] at conserved readers writers
      refine ⟨conserved, readers, ?_, within, by simp [Child.ended], alive, ?_⟩
      · simp only [Child.writeEnds] at writers ⊢
        omega
      · intro gone
        rw [last gone] at here
        contradiction
  | @read n here more fits there =>
      rw [here] at conserved readers writers
      refine ⟨?_, readers, writers, within, by simp [Child.ended], alive, ?_⟩
      · rw [← conserved]
        simp only [Child.held, List.append_nil, List.append_assoc]
        rw [← List.append_assoc (List.take n _), List.take_append_drop]
      · intro gone
        rw [last gone] at here
        contradiction
  | eof here empty closed =>
      rw [here] at conserved readers writers
      refine ⟨conserved, readers, writers, within, ?_, alive, ?_⟩
      · refine fun _ => ⟨?_, empty⟩
        show before.parent.writeEnds = 0
        omega
      · intro gone
        rw [last gone] at here
        contradiction
  | echo here =>
      rw [here] at conserved readers writers
      refine ⟨?_, readers, writers, within, by simp [Child.ended], alive, ?_⟩
      · simpa [Child.held] using conserved
      · intro gone
        rw [last gone] at here
        contradiction
  | exit here =>
      rw [here] at conserved readers writers ended
      refine ⟨conserved, ?_, writers, within, fun _ => ended rfl, alive, fun _ => rfl⟩
      simp only [Child.readEnds] at readers ⊢
      omega

theorem run_sound (s : State Byte) (run : Run limits messages s) : Sound messages s := by
  apply reachable_invariant (system limits messages) (Sound messages) _ _ s run
  · rintro first rfl
    exact ⟨by simp [initial, Child.held, Parent.unsent], rfl, rfl, by simp [initial],
      by simp [initial, Child.ended], by simp [initial], by simp [initial]⟩
  · exact fun before event after => sound_step before after event

/-! Every step is progress, and somebody can always take one. -/

theorem step_spends (before after : State Byte) (event : Event)
    (next : Step limits before event after) : after.work < before.work := by
  unfold State.work
  cases next with
  | parentCloses here | closes here =>
      simp only [here, Parent.work]
      simp
  | enter here =>
      simp only [here, Parent.work]
      simp
      omega
  | write here more whole room reader atomic =>
      simp only [here, Parent.work, List.length_append, List.length_drop, List.length_take]
      omega
  | written here =>
      simp only [here, Parent.work]
      simp
  | sigpipe here more unread =>
      simp only [here, Parent.work]
      omega
  | waited here stopped =>
      simp only [here, Parent.work]
      omega
  | childCloses here | eof here | echo here | exit here =>
      simp only [here, Child.work]
      omega
  | read here more fits there =>
      simp only [here, Child.work, List.length_drop]
      omega

theorem child_moves (s : State Byte) (sound : Sound messages s) (here : s.child ≠ .exited)
    (fed : s.pipe.bytes ≠ [] ∨ s.parent.writeEnds = 0) :
    ∃ event after, Step limits s event after := by
  cases place : s.child with
  | forked => exact ⟨_, _, .childCloses place⟩
  | holding buf => exact ⟨_, _, .echo place⟩
  | finished => exact ⟨_, _, .exit place⟩
  | exited => exact absurd place here
  | reading =>
      by_cases empty : s.pipe.bytes = []
      · have closed : s.pipe.writers = 0 := by
          rw [sound.writers, place, fed.resolve_left (not_not_intro empty)]
          rfl
        exact ⟨_, _, .eof place empty closed⟩
      · have one : 1 ≤ s.pipe.bytes.length := List.length_pos_of_ne_nil empty
        exact ⟨_, _, .read place Nat.one_pos (by decide) one⟩

/-- A blocked write has bytes in front of it, which the child can take out. -/
theorem moves (s : State Byte) (sound : Sound messages s) (unfinished : ¬ s.Finished) :
    ∃ event after, Step limits s event after := by
  cases place : s.parent with
  | forked rest => exact ⟨_, _, .parentCloses place⟩
  | killed => exact absurd place sound.alive
  | ready rest =>
      cases rest with
      | nil => exact ⟨_, _, .closes place⟩
      | cons message rest => exact ⟨_, _, .enter place⟩
  | waiting =>
      by_cases stopped : s.child = .exited
      · exact ⟨_, _, .waited place stopped⟩
      · exact child_moves s sound stopped (.inr (by rw [place]; rfl))
  | exited => exact absurd ⟨place, sound.last place⟩ unfinished
  | writing message done rest =>
      have within := sound.within message done rest place
      have open_ : s.child.ended ≠ true := by
        intro stopped
        have closed := (sound.ended stopped).1
        rw [place] at closed
        contradiction
      have here : s.child ≠ .exited := fun gone => open_ (by rw [gone]; rfl)
      have reader : s.pipe.readers ≠ 0 := by
        rw [sound.readers]
        cases child : s.child with
        | exited => exact absurd child here
        | _ => simp [Child.readEnds]
      by_cases empty : s.pipe.bytes = []
      · by_cases stopped : done = message.length
        · subst stopped
          exact ⟨_, _, .written place⟩
        · by_cases small : message.length ≤ limits.pipeBuf
          · have room : s.pipe.bytes.length + (message.length - done) ≤ limits.capacity := by
              rw [empty, List.length_nil]
              exact Nat.le_trans (by omega) limits.fits
            exact ⟨_, _, .write (k := message.length - done) place (by omega) (by omega) room reader
              (fun _ => by omega)⟩
          · have room : s.pipe.bytes.length + 1 ≤ limits.capacity := by
              rw [empty, List.length_nil]
              exact Nat.le_trans limits.positive limits.fits
            exact ⟨_, _, .write (k := 1) place Nat.one_pos (by omega) room reader
              (fun short => absurd short small)⟩
      · exact child_moves s sound here (.inl empty)

theorem run_progress (limits : Limits) (messages : List (List Byte)) :
    Progress (system limits messages) (fun _ => false) State.Finished State.work := by
  apply progress_busy
  · exact fun before event after _ next => step_spends before after event next
  · exact fun s run unfinished => moves s (run_sound s run) unfinished

theorem sound_output (s : State Byte) (sound : Sound messages s) (stopped : s.child.ended = true) :
    s.output = messages.flatten := by
  obtain ⟨closed, empty⟩ := sound.ended stopped
  have nothing : s.parent.unsent = [] := by
    cases place : s.parent with
    | forked rest => rw [place] at closed; contradiction
    | ready rest => rw [place] at closed; contradiction
    | writing message done rest => rw [place] at closed; contradiction
    | _ => rfl
  have none_held : s.child.held = [] := by
    cases place : s.child with
    | holding buf => rw [place] at stopped; contradiction
    | _ => rfl
  have conserved := sound.conserved
  rw [nothing, none_held, empty] at conserved
  simpa using conserved

end Steps

/-- In every interleaving each byte is in one place only and the order is kept, the
parent is never killed, and the child ends with the whole text copied. -/
theorem relay_faithful (limits : Limits) (messages : List (List Byte)) (s : State Byte)
    (run : Run limits messages s) :
    s.output ++ s.child.held ++ s.pipe.bytes ++ s.parent.unsent = messages.flatten ∧
      s.parent ≠ .killed ∧ (s.child.ended = true → s.output = messages.flatten) :=
  have sound := run_sound s run
  ⟨sound.conserved, sound.alive, sound_output s sound⟩

theorem relay_faithful_records : ∃ s, Run linux records s ∧ s.output = records.flatten := by
  obtain ⟨_, s, path, _, stopped⟩ := progress_finishes (run_progress linux records) (initial records)
    (.start rfl)
  have run := path_reachable _ _ _ _ (.start rfl) path
  exact ⟨s, run, (relay_faithful linux records s run).2.2 (by rw [stopped]; rfl)⟩

/-- No interleaving blocks or goes on forever: a run has a bounded number of steps, and
where no step can be taken both processes have exited and all ends are closed. -/
theorem relay_finishes (limits : Limits) (messages : List (List Byte)) (s : State Byte)
    (run : Run limits messages s) :
    (∀ events after, Path (system limits messages) (initial messages) events after →
      events.length ≤ 3 * messages.flatten.length + 2 * messages.length + 6) ∧
    ((∀ event after, ¬ Step limits s event after) →
      s = ⟨⟨[], 0, 0⟩, .exited, .exited, messages.flatten⟩) := by
  have progress := run_progress limits messages
  constructor
  · intro events after path
    have bounded := busy_bounded progress _ _ _ (.start rfl) path
    have begins : (initial messages).work = 3 * messages.flatten.length + 2 * messages.length + 6 := by
      simp only [State.work, initial, Parent.work, Child.work, List.length_nil]
    omega
  · intro stuck
    have sound := run_sound s run
    obtain ⟨left, stopped⟩ : s.Finished :=
      busy_stuck progress s run stuck
    have ended : s.child.ended = true := by rw [stopped]; rfl
    obtain ⟨⟨bytes, readers, writers⟩, parent, child, output⟩ := s
    have text := sound_output _ sound ended
    have empty := (sound.ended ended).2
    have unread := sound.readers
    have unwritten := sound.writers
    simp only at left stopped text empty unread unwritten
    subst left stopped text empty unread unwritten
    rfl

theorem relay_finishes_msgs : ∃ s, Run linux msgs s ∧ s.output = msgs.flatten ∧ s.pipe = ⟨[], 0, 0⟩ := by
  obtain ⟨_, s, path, left, stopped⟩ := progress_finishes (run_progress linux msgs) (initial msgs)
    (.start rfl)
  have run := path_reachable _ _ _ _ (.start rfl) path
  have idle : s.work = 0 := by
    have empty := ((run_sound s run).ended (by rw [stopped]; rfl)).2
    simp [State.work, left, stopped, empty, Parent.work, Child.work]
  have stuck : ∀ event after, ¬ Step linux s event after := by
    intro event after next
    have less := step_spends s after event next
    omega
  have final := (relay_finishes linux msgs s run).2 stuck
  exact ⟨s, run, by rw [final], by rw [final]⟩

end LinuxMemory.PipeRelay
