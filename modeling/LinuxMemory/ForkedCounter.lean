import LinuxMemory.Mappings
import LinuxMemory.Transition

/-!
`01_fork.c`, whose output goes to a terminal, which shows each line at once, or to a file,
which gets the lines of a process when it returns from `main`. The child has its own copy
of the counter and of the lines not yet written; `_exit` forgets the latter.
-/

namespace LinuxMemory.ForkedCounter

open Mappings Transition

inductive Line where
  | beforeFork (pid : Nat) (counter : Int)
  | child (pid ppid : Nat) (counter : Int)
  | afterWait (pid : Nat) (counter : Int)
  | status (code : Int)
  deriving DecidableEq

structure Process where
  pid : Nat
  -- the page of the stack that holds `counter`
  stack : Mapping Unit Int
  -- lines that `printf` has not written yet
  buffer : List Line

inductive Parent where
  | starting
  | printed
  | forked
  | assigned
  | waited (status : Int)
  | told (status : Int)
  | reported
  | returned
  -- `fork` has failed, and `main` returned 1
  | failed
  deriving DecidableEq

inductive Child where
  | unborn
  | born
  | assigned
  | printed
  | exited (status : Int)
  | reaped

structure State where
  objects : Objects Unit Int
  parent : Process
  child : Process
  parentAt : Parent
  childAt : Child
  output : List Line

inductive Event where
  | parentPrints | forks | forkFails | parentSets | waits | tells | reports | returns
  | childSets | childPrints | childExits

def page (i : Nat) : Nat := i / 1024

def Process.counter (p : Process) (objects : Objects Unit Int) : Int := p.stack.read page objects 0

def Process.set (p : Process) (objects : Objects Unit Int) (v : Int) : Process :=
  { p with stack := (p.stack.write page objects 0 v).2 }

/-- `printf` of a line: what it leaves in the buffer, and what it adds to the output. -/
def Process.printf (terminal : Bool) (p : Process) (line : Line) : Process :=
  if terminal then p else { p with buffer := p.buffer ++ [line] }

def shown (terminal : Bool) (line : Line) : List Line := if terminal then [line] else []

inductive Step (terminal : Bool) : State → Event → State → Prop where
  | parentPrints {s : State} (here : s.parentAt = .starting) :
      Step terminal s .parentPrints { s with
        parent := s.parent.printf terminal (.beforeFork s.parent.pid (s.parent.counter s.objects))
        parentAt := .printed
        output := s.output ++ shown terminal (.beforeFork s.parent.pid (s.parent.counter s.objects)) }
  | forks {s : State} {pid : Nat} (here : s.parentAt = .printed) (fresh : pid ≠ s.parent.pid) :
      Step terminal s .forks
        { s with child := { s.parent with pid := pid }, parentAt := .forked, childAt := .born }
  | forkFails {s : State} (here : s.parentAt = .printed) :
      Step terminal s .forkFails { s with parentAt := .failed, output := s.output ++ s.parent.buffer }
  | parentSets {s : State} (here : s.parentAt = .forked) :
      Step terminal s .parentSets { s with
        objects := (s.parent.stack.write page s.objects 0 1).1
        parent := s.parent.set s.objects 1, parentAt := .assigned }
  | waits {s : State} {status : Int} (here : s.parentAt = .assigned) (ended : s.childAt = .exited status) :
      Step terminal s .waits { s with parentAt := .waited status, childAt := .reaped }
  | tells {s : State} {status : Int} (here : s.parentAt = .waited status) :
      Step terminal s .tells { s with
        parent := s.parent.printf terminal (.afterWait s.parent.pid (s.parent.counter s.objects))
        parentAt := .told status
        output := s.output ++ shown terminal (.afterWait s.parent.pid (s.parent.counter s.objects)) }
  | reports {s : State} {status : Int} (here : s.parentAt = .told status) :
      Step terminal s .reports { s with
        parent := s.parent.printf terminal (.status status), parentAt := .reported
        output := s.output ++ shown terminal (.status status) }
  | returns {s : State} (here : s.parentAt = .reported) :
      Step terminal s .returns { s with parentAt := .returned, output := s.output ++ s.parent.buffer }
  | childSets {s : State} (here : s.childAt = .born) :
      Step terminal s .childSets { s with
        objects := (s.child.stack.write page s.objects 0 100).1
        child := s.child.set s.objects 100, childAt := .assigned }
  | childPrints {s : State} {ppid : Nat} (here : s.childAt = .assigned)
      -- a child whose parent has returned belongs to process 1
      (adopted : ppid = if s.parentAt = .returned then 1 else s.parent.pid) :
      Step terminal s .childPrints { s with
        child := s.child.printf terminal (.child s.child.pid ppid (s.child.counter s.objects))
        childAt := .printed
        output := s.output ++ shown terminal (.child s.child.pid ppid (s.child.counter s.objects)) }
  | childExits {s : State} (here : s.childAt = .printed) :
      Step terminal s .childExits { s with childAt := .exited 0 }

def initial (pid : Nat) : State :=
  let start : Process := ⟨pid, .mapPrivate () fun _ => none, []⟩
  ⟨fun _ _ => 0, start.set (fun _ _ => 0) 0, start, .starting, .unborn, []⟩

def system (terminal : Bool) (pid : Nat) : System State Event := ⟨(· = initial pid), Step terminal⟩

abbrev Run (terminal : Bool) (pid : Nat) : State → Prop := Reachable (system terminal pid)

/-! What each process has printed so far: the parent before the `fork`, the child, and the
parent behind its `waitpid`. -/

def Parent.first (pid : Nat) : Parent → List Line
  | .starting => []
  | _ => [.beforeFork pid 0]

def Parent.rest (pid : Nat) : Parent → List Line
  | .told _ => [.afterWait pid 1]
  | .reported | .returned => [.afterWait pid 1, .status 0]
  | _ => []

def Child.lines (pid ppid : Nat) : Child → List Line
  | .unborn | .born | .assigned => []
  | _ => [.child pid ppid 100]

def Parent.ended : Parent → Bool
  | .returned | .failed => true
  | _ => false

def Parent.hasForked : Parent → Bool
  | .starting | .printed | .failed => false
  | _ => true

def Parent.hasWaited : Parent → Bool
  | .waited _ | .told _ | .reported | .returned => true
  | _ => false

def Parent.value : Parent → Int
  | .starting | .printed | .forked | .failed => 0
  | _ => 1

def Child.value : Child → Int
  | .unborn | .born => 0
  | _ => 100

def Parent.taken : Parent → Option Int
  | .waited status | .told status => some status
  | _ => none

def Child.code : Child → Option Int
  | .exited status => some status
  | _ => none

structure Sound (terminal : Bool) (pid : Nat) (s : State) : Prop where
  parentPid : s.parent.pid = pid
  childPid : s.childAt ≠ .unborn → s.child.pid ≠ pid
  forked : s.parentAt.hasForked = true ↔ s.childAt ≠ .unborn
  waited : s.parentAt.hasWaited = true ↔ s.childAt = .reaped
  status : (∀ status, s.parentAt.taken = some status → status = 0) ∧
    ∀ status, s.childAt.code = some status → status = 0
  isPrivate : (∃ copies, s.parent.stack = .mapPrivate () copies) ∧
    ∃ copies, s.child.stack = .mapPrivate () copies
  parentValue : s.parent.counter s.objects = s.parentAt.value
  childValue : s.childAt ≠ .unborn → s.child.counter s.objects = s.childAt.value
  buffer : s.parent.buffer = if terminal then [] else s.parentAt.first pid ++ s.parentAt.rest pid
  output : s.output =
    if terminal then s.parentAt.first pid ++ s.childAt.lines s.child.pid pid ++ s.parentAt.rest pid
    else if s.parentAt.ended then s.parentAt.first pid ++ s.parentAt.rest pid else []

theorem set_private (p : Process) (objects : Objects Unit Int) (v : Int)
    (isPrivate : ∃ copies, p.stack = .mapPrivate () copies) :
    (p.stack.write page objects 0 v).1 = objects ∧ (p.set objects v).counter objects = v ∧
      ∃ copies, (p.set objects v).stack = .mapPrivate () copies := by
  obtain ⟨copies, shape⟩ := isPrivate
  have kept : (p.stack.write page objects 0 v).1 = objects := by
    rw [shape]
    rfl
  have own := congrFun (read_write page objects p.stack 0 v) 0
  rw [kept, Function.update_self] at own
  refine ⟨kept, own, ?_⟩
  rw [Process.set, shape]
  exact ⟨_, rfl⟩

section Printf
variable {terminal : Bool} {p : Process} {line : Line} {objects : Objects Unit Int}

@[simp] theorem printf_pid : (p.printf terminal line).pid = p.pid := by
  cases terminal <;> rfl

@[simp] theorem printf_stack : (p.printf terminal line).stack = p.stack := by
  cases terminal <;> rfl

@[simp] theorem printf_counter : (p.printf terminal line).counter objects = p.counter objects := by
  cases terminal <;> rfl

end Printf

/-- Before `waitpid` has returned, the parent has printed nothing behind the `fork`. -/
theorem rest_early (pid : Nat) (p : Parent) (early : p.hasWaited = false) : p.rest pid = [] := by
  cases p with
  | waited _ | told _ | reported | returned => cases early
  | _ => rfl

section Steps
variable {terminal : Bool} {pid : Nat} {before after s : State} {event : Event}

theorem sound_step (sound : Sound terminal pid before) (next : Step terminal before event after) :
    Sound terminal pid after := by
  obtain ⟨parentPid, childPid, forked, waited, status, isPrivate, parentValue, childValue, buffer,
    output⟩ := sound
  cases next with
  | parentPrints here =>
      rw [here] at forked waited parentValue buffer output
      have unborn : before.childAt = .unborn := by simpa [Parent.hasForked] using forked
      have value : before.parent.counter before.objects = 0 := parentValue
      refine ⟨printf_pid.trans parentPid, childPid, forked, waited, ⟨by simp [Parent.taken], status.2⟩,
        by simpa using isPrivate, printf_counter.trans parentValue, childValue, ?_, ?_⟩
      · rw [value, parentPid]
        cases terminal <;> simp_all [Process.printf, Parent.first, Parent.rest]
      · rw [value, parentPid, unborn]
        cases terminal <;> simp_all [shown, Parent.first, Parent.rest, Child.lines, Parent.ended]
  | forks here fresh =>
      rw [here] at forked waited parentValue buffer output
      have unborn : before.childAt = .unborn := by simpa [Parent.hasForked] using forked
      rw [unborn] at output waited
      refine ⟨parentPid, fun _ => by rwa [parentPid] at fresh, by simp [Parent.hasForked], ?_,
        ⟨by simp [Parent.taken], by simp [Child.code]⟩, ⟨isPrivate.1, isPrivate.1⟩, parentValue,
        fun _ => parentValue, buffer, output⟩
      simp [Parent.hasWaited]
  | forkFails here =>
      rw [here] at forked waited parentValue buffer output
      have unborn : before.childAt = .unborn := by simpa [Parent.hasForked] using forked
      refine ⟨parentPid, childPid, forked, waited, ⟨by simp [Parent.taken], status.2⟩, isPrivate,
        parentValue, childValue, buffer, ?_⟩
      rw [output, buffer, unborn]
      cases terminal <;> simp [Parent.first, Parent.rest, Child.lines, Parent.ended]
  | parentSets here =>
      rw [here] at forked waited buffer output
      obtain ⟨kept, value, isPrivate'⟩ := set_private before.parent before.objects 1 isPrivate.1
      have own : (⟨(before.parent.stack.write page before.objects 0 1).1, before.parent.set before.objects 1,
          before.child, .assigned, before.childAt, before.output⟩ : State).objects = before.objects := kept
      refine ⟨parentPid, childPid, forked, waited, ⟨by simp [Parent.taken], status.2⟩,
        ⟨isPrivate', isPrivate.2⟩, ?_, ?_, buffer, output⟩
      · rw [own]
        exact value
      · rw [own]
        exact childValue
  | @waits code here ended =>
      rw [here] at forked waited parentValue buffer output
      rw [ended] at childValue output
      have zero : code = 0 := status.2 code (by rw [ended]; rfl)
      refine ⟨parentPid, fun _ => childPid (by rw [ended]; simp), by simp [Parent.hasForked],
        by simp [Parent.hasWaited], ⟨?_, by simp [Child.code]⟩, isPrivate, parentValue,
        fun _ => childValue (by simp), buffer, output⟩
      rintro taken ⟨⟩
      exact zero
  | @tells code here =>
      have zero := status.1 code (by rw [here]; rfl)
      rw [here] at forked waited parentValue buffer output
      have value : before.parent.counter before.objects = 1 := parentValue
      have reaped : before.childAt = .reaped := waited.mp rfl
      refine ⟨printf_pid.trans parentPid, childPid, forked, waited, ⟨?_, status.2⟩, by simpa using isPrivate,
        printf_counter.trans parentValue, childValue, ?_, ?_⟩
      · rintro taken ⟨⟩
        exact zero
      · rw [value, parentPid]
        cases terminal <;> simp_all [Process.printf, Parent.first, Parent.rest]
      · rw [value, parentPid, reaped]
        cases terminal <;> simp_all [shown, Parent.first, Parent.rest, Child.lines, Parent.ended]
  | @reports code here =>
      have zero := status.1 code (by rw [here]; rfl)
      subst zero
      rw [here] at forked waited parentValue buffer output
      have reaped : before.childAt = .reaped := waited.mp rfl
      refine ⟨printf_pid.trans parentPid, childPid, forked, waited, ⟨by simp [Parent.taken], status.2⟩,
        by simpa using isPrivate, printf_counter.trans parentValue, childValue, ?_, ?_⟩
      · cases terminal <;> simp_all [Process.printf, Parent.first, Parent.rest]
      · rw [reaped]
        cases terminal <;> simp_all [shown, Parent.first, Parent.rest, Child.lines, Parent.ended]
  | returns here =>
      rw [here] at forked waited parentValue buffer output
      refine ⟨parentPid, childPid, forked, waited, ⟨by simp [Parent.taken], status.2⟩, isPrivate,
        parentValue, childValue, buffer, ?_⟩
      rw [output, buffer]
      cases terminal <;> simp [Parent.first, Parent.rest, Parent.ended]
  | childSets here =>
      rw [here] at forked waited childPid output
      obtain ⟨kept, value, isPrivate'⟩ := set_private before.child before.objects 100 isPrivate.2
      refine ⟨parentPid, fun _ => childPid (by simp), by simpa using forked, by simpa using waited,
        ⟨status.1, by simp [Child.code]⟩, ⟨isPrivate.1, isPrivate'⟩, ?_, fun _ => ?_, buffer, output⟩
      · simpa only [kept] using parentValue
      · have assigned : (before.child.set before.objects 100).counter before.objects =
            Child.assigned.value := value
        simpa only [kept] using assigned
  | @childPrints ppid here adopted =>
      rw [here] at forked waited childPid childValue output
      have early : before.parentAt.hasWaited = false := by simpa using waited
      have there : before.parentAt ≠ .returned := by
        intro gone
        rw [gone] at early
        cases early
      have value : before.child.counter before.objects = 100 := childValue (by simp)
      rw [if_neg there, parentPid] at adopted
      refine ⟨parentPid, fun _ => by simpa using childPid, by simpa using forked, by simpa using waited,
        ⟨status.1, by simp [Child.code]⟩, by simpa using isPrivate, parentValue,
        fun _ => printf_counter.trans value, buffer, ?_⟩
      rw [value, adopted, rest_early pid _ early, printf_pid]
      rw [rest_early pid _ early] at output
      cases terminal <;> simp_all [shown, Child.lines]
  | childExits here =>
      rw [here] at forked waited childPid childValue output
      exact ⟨parentPid, fun _ => childPid (by simp), by simpa using forked, by simpa using waited,
        ⟨status.1, by rintro code ⟨⟩; rfl⟩, isPrivate, parentValue, fun _ => childValue (by simp),
        buffer, output⟩

theorem run_sound (s : State) (run : Run terminal pid s) : Sound terminal pid s := by
  apply reachable_invariant (system terminal pid) (Sound terminal pid) _ _ s run
  · rintro first rfl
    have start := set_private ⟨pid, .mapPrivate () fun _ => none, []⟩ (fun _ _ => 0) 0 ⟨_, rfl⟩
    refine ⟨rfl, by simp [initial], by simp [initial, Parent.hasForked], by simp [initial, Parent.hasWaited],
      ⟨by simp [initial, Parent.taken], by simp [initial, Child.code]⟩, ⟨start.2.2, _, rfl⟩, start.2.1,
      by simp [initial], ?_, ?_⟩
    · cases terminal <;> rfl
    · cases terminal <;> rfl
  · exact fun before event after sound next => sound_step sound next

/-! Every run ends. -/

def Parent.work : Parent → Nat
  | .starting => 7
  | .printed => 6
  | .forked => 5
  | .assigned => 4
  | .waited _ => 3
  | .told _ => 2
  | .reported => 1
  | .returned | .failed => 0

def Child.work : Child → Nat
  | .born => 3
  | .assigned => 2
  | .printed => 1
  | .unborn | .exited _ | .reaped => 0

def State.work (s : State) : Nat :=
  s.parentAt.work + s.childAt.work + match s.parentAt with
    | .starting | .printed => 3
    | _ => 0

theorem run_progress : Progress (system terminal pid) (fun _ => false) (fun s => s.parentAt.ended = true)
    State.work := by
  apply progress_busy
  · intro before event after run next
    have sound := run_sound before run
    cases next with
    | forks here fresh =>
        have unborn : before.childAt = .unborn := by simpa [here, Parent.hasForked] using sound.forked
        simp [State.work, here, unborn, Parent.work, Child.work]
    | parentPrints here | parentSets here | tells here | reports here | returns here =>
        simp [State.work, here, Parent.work]
    | forkFails here =>
        simp [State.work, here, Parent.work]
        omega
    | waits here ended => simp [State.work, here, ended, Parent.work, Child.work]
    | childSets here | childPrints here | childExits here => simp [State.work, here, Child.work]
  · intro s run unfinished
    have sound := run_sound s run
    cases place : s.parentAt with
    | starting => exact ⟨_, _, .parentPrints place⟩
    | printed => exact ⟨_, _, .forkFails place⟩
    | forked => exact ⟨_, _, .parentSets place⟩
    | waited _ => exact ⟨_, _, .tells place⟩
    | told _ => exact ⟨_, _, .reports place⟩
    | reported => exact ⟨_, _, .returns place⟩
    | returned | failed => rw [place] at unfinished; exact absurd rfl unfinished
    | assigned =>
        cases there : s.childAt with
        | unborn => exact absurd there (sound.forked.mp (by rw [place]; rfl))
        | born => exact ⟨_, _, .childSets there⟩
        | assigned => exact ⟨_, _, .childPrints there rfl⟩
        | printed => exact ⟨_, _, .childExits there⟩
        | exited _ => exact ⟨_, _, .waits place there⟩
        | reaped =>
            have waited := sound.waited.mpr there
            rw [place] at waited
            cases waited

end Steps

/-- What has been written when `main` returns. -/
def report (terminal : Bool) (pid childPid : Nat) : List Line :=
  if terminal then [.beforeFork pid 0, .child childPid pid 100, .afterWait pid 1, .status 0]
  else [.beforeFork pid 0, .afterWait pid 1, .status 0]

theorem output_front {terminal : Bool} {pid : Nat} {s : State} (sound : Sound terminal pid s) :
    s.output <+: report terminal pid s.child.pid := by
  rw [sound.output]
  cases terminal with
  | false => cases s.parentAt <;> simp [report, Parent.ended, Parent.first, Parent.rest]
  | true =>
      cases late : s.parentAt.hasWaited with
      | true =>
          rw [sound.waited.mp late]
          cases place : s.parentAt with
          | waited _ | told _ | reported | returned =>
              simp [report, Parent.first, Parent.rest, Child.lines]
          | _ => rw [place] at late; cases late
      | false =>
          rw [rest_early pid _ late, List.append_nil]
          cases born : s.parentAt.hasForked with
          | true =>
              have printed : s.parentAt.first pid = [.beforeFork pid 0] := by
                cases place : s.parentAt with
                | starting => rw [place] at born; cases born
                | _ => rfl
              rw [printed]
              cases s.childAt <;> simp [report, Child.lines]
          | false =>
              have unborn : s.childAt = .unborn := by simpa [born] using sound.forked
              rw [unborn]
              cases s.parentAt <;> simp [report, Parent.first, Child.lines]

/-- In every interleaving each process reads its own counter, the child prints the pid of
its parent, and the lines come in one order, each once; but the line of the child is lost
where the output is not a terminal. A run has at most 10 steps and stops only where `main`
has returned. -/
theorem counters_apart (terminal : Bool) (pid : Nat) (s : State) (run : Run terminal pid s) :
    (s.parentAt = .returned → s.child.pid ≠ pid ∧ s.output = report terminal pid s.child.pid) ∧
    (s.parentAt = .failed → s.output = [.beforeFork pid 0]) ∧
    s.output <+: report terminal pid s.child.pid ∧
    (∀ events after, Path (system terminal pid) (initial pid) events after → events.length ≤ 10) ∧
    ((∀ event after, ¬ Step terminal s event after) → s.parentAt.ended = true) := by
  have sound := run_sound s run
  have output := sound.output
  refine ⟨?_, ?_, ?_, ?_, ?_⟩
  · intro returned
    have reaped : s.childAt = .reaped := sound.waited.mp (by rw [returned]; rfl)
    refine ⟨sound.childPid (by rw [reaped]; simp), ?_⟩
    rw [returned, reaped] at output
    rw [output]
    cases terminal <;> rfl
  · intro failed
    have unborn : s.childAt = .unborn := by simpa [failed, Parent.hasForked] using sound.forked
    rw [failed, unborn] at output
    rw [output]
    cases terminal <;> rfl
  · exact output_front sound
  · intro events after path
    have bounded := busy_bounded run_progress _ _ _ (.start rfl) path
    have begins : (initial pid).work = 10 := rfl
    omega
  · exact busy_stuck run_progress s run

theorem counters_apart_file : ∃ s, Run false 7 s ∧ s.parentAt = .returned ∧
    s.output = [.beforeFork 7 0, .afterWait 7 1, .status 0] := by
  have printed : Run false 7 _ := .step (.start rfl) (.parentPrints rfl)
  have forked := Reachable.step printed (.forks rfl (show 8 ≠ 7 by decide))
  have childSets := Reachable.step forked (.childSets rfl)
  have childPrints := Reachable.step childSets (.childPrints rfl rfl)
  have childExits := Reachable.step childPrints (.childExits rfl)
  have parentSets := Reachable.step childExits (.parentSets rfl)
  have waits := Reachable.step parentSets (.waits rfl rfl)
  have tells := Reachable.step waits (.tells rfl)
  have reports := Reachable.step tells (.reports rfl)
  have run := Reachable.step reports (.returns rfl)
  exact ⟨_, run, rfl, ((counters_apart false 7 _ run).1 rfl).2⟩

end LinuxMemory.ForkedCounter
