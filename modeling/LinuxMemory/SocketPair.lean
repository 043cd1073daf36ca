import LinuxMemory.Transition
import Mathlib.Data.List.DropRight

/-!
The socket pair of `10_ipc_memory/02_socketpair.c` from the return of `fork` on, with any
question and any answer that are not empty. A write blocks until the whole text fits the
socket; that one of more than `capacity` bytes goes there in pieces is left out, and the
results are about shorter ones. Both processes start with both ends open. Standard output
is a terminal: `printf` shows a text through its last newline, the rest is shown when
`main` returns and lost at `_exit`.
-/

namespace LinuxMemory.SocketPair

open Transition

/-- Half of the default send buffer, less the header. -/
def linux : Nat := 106432

-- `alone` has closed the end of the child, and `waiting` also its own
inductive Parent where
  | forked
  | alone
  | asked
  | holding (buf : List Char)
  | shown (buf : List Char)
  | waiting (buf : List Char)
  | finished
  | killed

inductive Child where
  | forked
  | listening
  | holding (buf : List Char)
  | shown
  | answered
  | exited
  | killed

/-- `ends0` and `ends1` count the descriptors that refer to `sv[0]` and `sv[1]`; `at0` and
`at1` are what has been sent to either end and not been read. -/
structure State where
  ends0 : Nat
  ends1 : Nat
  at0 : List Char
  at1 : List Char
  parent : Parent
  child : Child
  output : List Char

def bufSize : Nat := 64

/-- `printf` of a format and `%.*s`, which stops at a null byte. -/
def childText (buf : List Char) : List Char :=
  "[child] got ".toList ++ buf.takeWhile fun c => c ≠ Char.ofNat 0

def parentText (buf : List Char) : List Char :=
  "[parent] got ".toList ++ buf.takeWhile fun c => c ≠ Char.ofNat 0

/-- The part of a text that a terminal shows at once. -/
def flushed (text : List Char) : List Char := text.rdropWhile fun c => c ≠ '\n'

def unflushed (text : List Char) : List Char := text.rtakeWhile fun c => c ≠ '\n'

inductive Event where
  | parentCloses | asks | askFails | parentReads | parentEof | parentShows | parentLeaves | waited
  | childCloses | childReads | childEof | childShows | answers | answerFails | childLeaves

inductive Step (capacity : Nat) (question answer : List Char) : State → Event → State → Prop where
  | parentCloses {s : State} (here : s.parent = .forked) :
      Step capacity question answer s .parentCloses { s with ends1 := s.ends1 - 1, parent := .alone }
  | asks {s : State} (here : s.parent = .alone) (peer : s.ends1 ≠ 0)
      (room : s.at1.length + question.length ≤ capacity) :
      Step capacity question answer s .asks { s with at1 := s.at1 ++ question, parent := .asked }
  | askFails {s : State} (here : s.parent = .alone) (gone : s.ends1 = 0) :
      Step capacity question answer s .askFails { s with parent := .killed }
  | parentReads {s : State} (here : s.parent = .asked) (there : s.at0 ≠ []) :
      Step capacity question answer s .parentReads { s with
        at0 := s.at0.drop bufSize, parent := .holding (s.at0.take bufSize) }
  | parentEof {s : State} (here : s.parent = .asked) (empty : s.at0 = []) (gone : s.ends1 = 0) :
      Step capacity question answer s .parentEof { s with parent := .holding [] }
  | parentShows {s : State} {buf : List Char} (here : s.parent = .holding buf) :
      Step capacity question answer s .parentShows { s with
        parent := .shown buf, output := s.output ++ flushed (parentText buf) }
  | parentLeaves {s : State} {buf : List Char} (here : s.parent = .shown buf) :
      Step capacity question answer s .parentLeaves { s with ends0 := s.ends0 - 1, parent := .waiting buf }
  | waited {s : State} {buf : List Char} (here : s.parent = .waiting buf) (ended : s.child = .exited) :
      Step capacity question answer s .waited { s with
        parent := .finished, output := s.output ++ unflushed (parentText buf) }
  | childCloses {s : State} (here : s.child = .forked) :
      Step capacity question answer s .childCloses { s with ends0 := s.ends0 - 1, child := .listening }
  | childReads {s : State} (here : s.child = .listening) (there : s.at1 ≠ []) :
      Step capacity question answer s .childReads { s with
        at1 := s.at1.drop bufSize, child := .holding (s.at1.take bufSize) }
  | childEof {s : State} (here : s.child = .listening) (empty : s.at1 = []) (gone : s.ends0 = 0) :
      Step capacity question answer s .childEof { s with child := .holding [] }
  | childShows {s : State} {buf : List Char} (here : s.child = .holding buf) :
      Step capacity question answer s .childShows { s with
        child := .shown, output := s.output ++ flushed (childText buf) }
  | answers {s : State} (here : s.child = .shown) (peer : s.ends0 ≠ 0)
      (room : s.at0.length + answer.length ≤ capacity) :
      Step capacity question answer s .answers { s with at0 := s.at0 ++ answer, child := .answered }
  | answerFails {s : State} (here : s.child = .shown) (gone : s.ends0 = 0) :
      Step capacity question answer s .answerFails { s with child := .killed }
  | childLeaves {s : State} (here : s.child = .answered) :
      Step capacity question answer s .childLeaves { s with ends1 := s.ends1 - 1, child := .exited }

def initial : State := ⟨2, 2, [], [], .forked, .forked, []⟩

def system (capacity : Nat) (question answer : List Char) : System State Event :=
  ⟨(· = initial), Step capacity question answer⟩

abbrev Run (capacity : Nat) (question answer : List Char) : State → Prop :=
  Reachable (system capacity question answer)

/-! How far the processes are. -/

def Parent.rank : Parent → Nat
  | .forked => 0
  | .alone => 1
  | .asked => 2
  | .holding _ => 3
  | .shown _ => 4
  | .waiting _ => 5
  | .finished => 6
  | .killed => 7

def Child.rank : Child → Nat
  | .forked => 0
  | .listening => 1
  | .holding _ => 2
  | .shown => 3
  | .answered => 4
  | .exited => 5
  | .killed => 6

def Parent.buffer : Parent → Option (List Char)
  | .holding buf | .shown buf | .waiting buf => some buf
  | _ => none

def Child.buffer : Child → Option (List Char)
  | .holding buf => some buf
  | _ => none

def childShown (question : List Char) : List Char := flushed (childText (question.take bufSize))

def parentShown (answer : List Char) : List Char := parentText (answer.take bufSize)

structure Spoken (question answer : List Char) (s : State) : Prop where
  ends0 : s.ends0 = (if s.parent.rank < 5 then 1 else 0) + if s.child.rank < 1 then 1 else 0
  ends1 : s.ends1 = (if s.parent.rank < 1 then 1 else 0) + if s.child.rank < 5 then 1 else 0
  order : (2 ≤ s.child.rank → 2 ≤ s.parent.rank) ∧ (3 ≤ s.parent.rank → 4 ≤ s.child.rank) ∧
    (s.parent.rank = 6 → s.child.rank = 5)
  at1 : s.at1 = if s.parent.rank < 2 then [] else if s.child.rank < 2 then question
    else question.drop bufSize
  at0 : s.at0 = if s.child.rank < 4 then [] else if s.parent.rank < 3 then answer
    else answer.drop bufSize
  childBuf : ∀ buf, s.child.buffer = some buf → buf = question.take bufSize
  parentBuf : ∀ buf, s.parent.buffer = some buf → buf = answer.take bufSize
  output : s.output = (if s.child.rank < 3 then [] else childShown question) ++
    if s.parent.rank < 4 then [] else if s.parent.rank < 6 then flushed (parentShown answer)
    else parentShown answer
  unharmed : s.parent ≠ .killed ∧ s.child ≠ .killed

theorem flushed_unflushed (text : List Char) : flushed text ++ unflushed text = text := by
  have split := List.takeWhile_append_dropWhile (p := fun c => decide (c ≠ '\n')) (l := text.reverse)
  have turned := congrArg List.reverse split
  rwa [List.reverse_append, List.reverse_reverse] at turned

section Steps
variable {capacity : Nat} {question answer : List Char} {before after s : State} {event : Event}

theorem close_left {count others : Nat} (counted : count = 1 + others) : count - 1 = 0 + others := by
  omega

theorem close_right {count others : Nat} (counted : count = others + 1) : count - 1 = others + 0 := by
  omega

theorem none_open {count : Nat} {left right : Prop} [Decidable left] [Decidable right]
    (counted : count = (if left then 1 else 0) + if right then 1 else 0) (none : count = 0) :
    ¬ left ∧ ¬ right := by
  subst none
  by_cases left <;> by_cases right <;> simp_all

theorem spoken_step (spoken : Spoken question answer before) (answers : answer ≠ [])
    (next : Step capacity question answer before event after) : Spoken question answer after := by
  obtain ⟨ends0, ends1, order, at1, at0, childBuf, parentBuf, output, unharmed⟩ := spoken
  cases next with
  | parentCloses here =>
      rw [here] at ends0 ends1 order at1 at0 output
      refine ⟨ends0, close_left ends1, ?_, at1, at0, childBuf, by simp [Parent.buffer], output, by simp,
        unharmed.2⟩
      simp only [Parent.rank] at order ⊢
      omega
  | asks here peer room =>
      rw [here] at ends0 ends1 order at1 at0 output
      have unread : before.child.rank < 2 := by
        simp only [Parent.rank] at order
        omega
      refine ⟨ends0, ends1, ?_, ?_, at0, childBuf, by simp [Parent.buffer], output, by simp, unharmed.2⟩
      · simp only [Parent.rank] at order ⊢
        omega
      · have empty : before.at1 = [] := at1
        show before.at1 ++ question = if before.child.rank < 2 then question else question.drop bufSize
        rw [empty, if_pos unread, List.nil_append]
  | askFails here gone =>
      have left := (none_open ends1 gone).2
      rw [here] at order
      simp only [Parent.rank] at order
      omega
  | parentReads here there =>
      rw [here] at ends0 ends1 order at1 at0 output
      have answered : ¬ before.child.rank < 4 := fun early => there (at0.trans (if_pos early))
      have whole : before.at0 = answer := at0.trans (if_neg answered)
      refine ⟨ends0, ends1, ?_, at1, ?_, childBuf, ?_, output, by simp, unharmed.2⟩
      · simp only [Parent.rank] at order ⊢
        omega
      · show before.at0.drop bufSize = if before.child.rank < 4 then [] else answer.drop bufSize
        rw [whole, if_neg answered]
      · rintro buf ⟨⟩
        rw [whole]
  | parentEof here empty gone =>
      have left := (none_open ends1 gone).2
      rw [here] at at0
      have answered : ¬ before.child.rank < 4 := by omega
      exact absurd (at0.symm.trans empty) (by rw [if_neg answered]; exact answers)
  | parentShows here =>
      have text := parentBuf _ (by rw [here]; rfl)
      rw [here] at ends0 ends1 order at1 at0 output
      refine ⟨ends0, ends1, ?_, at1, at0, childBuf, fun _ same => (Option.some.inj same) ▸ text, ?_,
        by simp, unharmed.2⟩
      · simp only [Parent.rank] at order ⊢
        omega
      · show before.output ++ _ = _ ++ flushed (parentShown answer)
        rw [output, text]
        exact congrArg (· ++ _) (List.append_nil _)
  | parentLeaves here =>
      have text := parentBuf _ (by rw [here]; rfl)
      rw [here] at ends0 ends1 order at1 at0 output
      refine ⟨close_left ends0, ends1, ?_, at1, at0, childBuf,
        fun _ same => (Option.some.inj same) ▸ text, output, by simp, unharmed.2⟩
      simp only [Parent.rank] at order ⊢
      omega
  | waited here ended =>
      have text := parentBuf _ (by rw [here]; rfl)
      rw [here] at ends0 ends1 order at1 at0 output
      refine ⟨ends0, ends1, ?_, at1, at0, childBuf, by simp [Parent.buffer], ?_, by simp, unharmed.2⟩
      · have last : before.child.rank = 5 := by rw [ended]; rfl
        simp only [Parent.rank]
        omega
      · show before.output ++ unflushed _ = _ ++ parentShown answer
        rw [output, text, List.append_assoc]
        exact congrArg (_ ++ ·) (flushed_unflushed (parentShown answer))
  | childCloses here =>
      rw [here] at ends0 ends1 order at1 at0 output
      refine ⟨close_right ends0, ends1, ?_, at1, at0, by simp [Child.buffer], parentBuf, output,
        unharmed.1, by simp⟩
      simp only [Child.rank] at order ⊢
      omega
  | childReads here there =>
      rw [here] at ends0 ends1 order at1 at0 output
      have asked : ¬ before.parent.rank < 2 := fun early => there (at1.trans (if_pos early))
      have whole : before.at1 = question := at1.trans (if_neg asked)
      refine ⟨ends0, ends1, ?_, ?_, at0, ?_, parentBuf, output, unharmed.1, by simp⟩
      · simp only [Child.rank] at order ⊢
        omega
      · show before.at1.drop bufSize = if before.parent.rank < 2 then [] else question.drop bufSize
        rw [whole, if_neg asked]
      · rintro buf ⟨⟩
        rw [whole]
  | childEof here empty gone =>
      have left := (none_open ends0 gone).1
      rw [here] at order
      simp only [Child.rank] at order
      omega
  | childShows here =>
      have text := childBuf _ (by rw [here]; rfl)
      rw [here] at ends0 ends1 order at1 at0 output
      have early : before.parent.rank < 4 := by
        simp only [Child.rank] at order
        omega
      refine ⟨ends0, ends1, ?_, at1, at0, by simp [Child.buffer], parentBuf, ?_, unharmed.1, by simp⟩
      · simp only [Child.rank] at order ⊢
        omega
      · have silent : before.output = [] := output.trans (by rw [if_pos early]; rfl)
        show before.output ++ flushed _ = childShown question ++ _
        rw [silent, text, if_pos early, List.append_nil]
        rfl
  | answers here peer room =>
      rw [here] at ends0 ends1 order at1 at0 output
      have early : before.parent.rank < 3 := by
        simp only [Child.rank] at order
        omega
      refine ⟨ends0, ends1, ?_, at1, ?_, by simp [Child.buffer], parentBuf, output, unharmed.1, by simp⟩
      · simp only [Child.rank] at order ⊢
        omega
      · have empty : before.at0 = [] := at0
        show before.at0 ++ answer = if before.parent.rank < 3 then answer else answer.drop bufSize
        rw [empty, if_pos early, List.nil_append]
  | answerFails here gone =>
      have left := (none_open ends0 gone).1
      rw [here] at order
      simp only [Child.rank] at order
      omega
  | childLeaves here =>
      rw [here] at ends0 ends1 order at1 at0 output
      refine ⟨ends0, close_right ends1, ?_, at1, at0, by simp [Child.buffer], parentBuf, output,
        unharmed.1, by simp⟩
      simp only [Child.rank] at order ⊢
      omega

theorem run_spoken (answers : answer ≠ []) (s : State) (run : Run capacity question answer s) :
    Spoken question answer s := by
  apply reachable_invariant (system capacity question answer) (Spoken question answer) _ _ s run
  · rintro first rfl
    exact ⟨rfl, rfl, by decide, rfl, rfl, by simp [initial, Child.buffer], by simp [initial, Parent.buffer],
      rfl, by simp [initial]⟩
  · exact fun before event after spoken next => spoken_step spoken answers next

/-! Every run ends. -/

def State.work (s : State) : Nat := (6 - s.parent.rank) + (5 - s.child.rank)

theorem step_spends (next : Step capacity question answer before event after) : after.work < before.work := by
  unfold State.work
  cases next with
  | parentCloses here | asks here | askFails here | parentReads here | parentEof here | parentShows here
  | parentLeaves here | waited here => simp [here, Parent.rank]
  | childCloses here | childReads here | childEof here | childShows here | answers here
  | answerFails here | childLeaves here => simp [here, Child.rank]

theorem child_moves (spoken : Spoken question answer s) (asks : question ≠ [])
    (fits : answer.length ≤ capacity) (asked : ¬ s.parent.rank < 2) (unfinished : s.child ≠ .exited) :
    ∃ event after, Step capacity question answer s event after := by
  cases place : s.child with
  | exited => exact absurd place unfinished
  | killed => exact absurd place spoken.unharmed.2
  | forked => exact ⟨_, _, .childCloses place⟩
  | listening =>
      refine ⟨_, _, .childReads place ?_⟩
      rw [spoken.at1, if_neg asked, place]
      exact asks
  | holding buf => exact ⟨_, _, .childShows place⟩
  | shown =>
      by_cases gone : s.ends0 = 0
      · exact ⟨_, _, .answerFails place gone⟩
      · refine ⟨_, _, .answers place gone ?_⟩
        rw [spoken.at0, place]
        simpa [Child.rank] using fits
  | answered => exact ⟨_, _, .childLeaves place⟩

theorem moves (spoken : Spoken question answer s) (asks : question ≠ []) (answers : answer ≠ [])
    (asksFits : question.length ≤ capacity) (answersFits : answer.length ≤ capacity)
    (unfinished : s.parent ≠ .finished) : ∃ event after, Step capacity question answer s event after := by
  cases place : s.parent with
  | finished => exact absurd place unfinished
  | killed => exact absurd place spoken.unharmed.1
  | forked => exact ⟨_, _, .parentCloses place⟩
  | alone =>
      by_cases gone : s.ends1 = 0
      · exact ⟨_, _, .askFails place gone⟩
      · refine ⟨_, _, .asks place gone ?_⟩
        rw [spoken.at1, place]
        simpa [Parent.rank] using asksFits
  | asked =>
      by_cases early : s.child.rank < 4
      · exact child_moves spoken asks answersFits (by rw [place]; decide)
          (by rintro there; rw [there] at early; contradiction)
      · refine ⟨_, _, .parentReads place ?_⟩
        rw [spoken.at0, if_neg early, place]
        exact answers
  | holding buf => exact ⟨_, _, .parentShows place⟩
  | shown buf => exact ⟨_, _, .parentLeaves place⟩
  | waiting buf =>
      by_cases ended : s.child = .exited
      · exact ⟨_, _, .waited place ended⟩
      · exact child_moves spoken asks answersFits (by simp [place, Parent.rank]) ended

theorem run_progress (asks : question ≠ []) (answers : answer ≠ []) (asksFits : question.length ≤ capacity)
    (answersFits : answer.length ≤ capacity) :
    Progress (system capacity question answer) (fun _ => false) (fun s => s.parent = .finished) State.work := by
  apply progress_busy
  · exact fun _ _ _ _ next => step_spends next
  · exact fun s run unfinished =>
      moves (run_spoken answers s run) asks answers asksFits answersFits unfinished

theorem output_front (spoken : Spoken question answer s) :
    s.output <+: childShown question ++ parentShown answer := by
  have order := spoken.order
  rw [spoken.output]
  by_cases silent : s.parent.rank < 4
  · rw [if_pos silent, List.append_nil]
    split
    · exact List.nil_prefix
    · exact List.prefix_append _ _
  · have told : ¬ s.child.rank < 3 := by omega
    rw [if_neg silent, if_neg told, List.prefix_append_right_inj]
    split
    · exact List.rdropWhile_prefix _ _
    · exact List.prefix_rfl

end Steps

/-- In every interleaving neither process writes to an end that is gone, the child's
line stands before the parent's and both hold what the other has sent, as far as it
fits a buffer. A run has at most 11 steps and can stop only where both are done. -/
theorem question_answered (capacity : Nat) (question answer : List Char) (asks : question ≠ [])
    (answers : answer ≠ []) (asksFits : question.length ≤ capacity) (answersFits : answer.length ≤ capacity)
    (s : State) (run : Run capacity question answer s) :
    s.parent ≠ .killed ∧ s.child ≠ .killed ∧ s.output <+: childShown question ++ parentShown answer ∧
    (s.parent = .finished → s.child = .exited ∧ s.output = childShown question ++ parentShown answer) ∧
    (∀ events after, Path (system capacity question answer) initial events after → events.length ≤ 11) ∧
    ((∀ event after, ¬ Step capacity question answer s event after) → s.parent = .finished) := by
  have spoken := run_spoken answers s run
  have progress := run_progress asks answers asksFits answersFits
  refine ⟨spoken.unharmed.1, spoken.unharmed.2, output_front spoken, ?_, ?_, ?_⟩
  · intro finished
    have last : s.child.rank = 5 := spoken.order.2.2 (by rw [finished]; rfl)
    have output := spoken.output
    rw [finished, last] at output
    refine ⟨?_, output⟩
    cases place : s.child with
    | exited => rfl
    | _ => simp [place, Child.rank] at last
  · intro events after path
    have bounded := busy_bounded progress _ _ _ (.start rfl) path
    have begins : initial.work = 11 := by decide
    omega
  · exact busy_stuck progress s run

theorem question_answered_pong : ∃ s, Run linux "ping\n".toList "pong\n".toList s ∧
    s.parent = .finished ∧ s.output = "[child] got ping\n[parent] got pong\n".toList := by
  have asks : "ping\n".toList ≠ [] := by decide
  have answers : "pong\n".toList ≠ [] := by decide
  have asksFits : "ping\n".toList.length ≤ linux := by decide
  have answersFits : "pong\n".toList.length ≤ linux := by decide
  obtain ⟨_, s, path, finished⟩ :=
    progress_finishes (run_progress asks answers asksFits answersFits) initial (.start rfl)
  have run := path_reachable _ _ _ _ (.start rfl) path
  have ended := (question_answered linux _ _ asks answers asksFits answersFits s run).2.2.2.1 finished
  exact ⟨s, run, finished, ended.2.trans (by decide +kernel)⟩

end LinuxMemory.SocketPair
