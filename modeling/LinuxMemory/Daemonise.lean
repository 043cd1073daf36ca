import LinuxMemory.Descriptors
import LinuxMemory.Transition

/-!
`daemonise` of `08_process_syscalls/07_daemonise.c`, with its three processes: the
one that calls it, the child that starts a session, and the grandchild that returns.
The processes run independently, and one whose parent has exited gets process 1 as
its parent. Either `fork` may fail; what the kernel grants besides is part of `Start`.
-/

namespace LinuxMemory.Daemonise

open Descriptors Transition

variable {Inherited : Type}

inductive Object (Inherited : Type) where
  | inherited (object : Inherited)
  | null
  deriving DecidableEq

structure Process where
  pid : Nat
  ppid : Nat
  pgid : Nat
  sid : Nat

/-- The process that calls `daemonise`, its surroundings, the numbers that the kernel will
give to the two new processes, and what it will grant: `chdir` to the root, `open` of
`/dev/null`, and descriptors below `limit`. -/
structure Start (Inherited : Type) where
  caller : Process
  table : Table Inherited
  cwd : List Char
  umask : Nat
  first : Nat
  second : Nat
  rootGranted : Bool
  nullGranted : Bool
  limit : Nat
  streamsAllowed : 3 ≤ limit
  unused : first ≠ caller.pid ∧ first ≠ caller.pgid ∧ first ≠ caller.sid
  apart : second ≠ first

-- `failed` has called `exit(1)`, `gone` has called `exit(0)`
inductive Original where
  | calling
  | leaving
  | gone
  | failed

inductive First where
  | unborn
  | born
  | leader
  | leaving
  | gone
  | failed

/-- Where the grandchild is; `fd` is what its `open` returned, `none` for -1. -/
inductive Second where
  | unborn
  | born
  | atRoot
  | unmasked
  | opened (fd : Option Nat)
  | duplicated (fd : Option Nat) (upTo : Nat)
  | returned

structure State (Inherited : Type) where
  original : Original
  first : First
  second : Second
  firstProcess : Process
  secondProcess : Process
  table : Table (Object Inherited)
  cwd : List Char
  umask : Nat

inductive Event where
  | forks | forkFails | leaves | setsid | setsidFails | forksAgain | forkFailsAgain | leavesToo
  | chdir | umask | opens | dup | drops | keeps

/-- `setsid` is refused to the leader of a process group. -/
def Process.leadsGroup (p : Process) : Bool := p.pid = p.pgid

def forked (parent : Process) (pid : Nat) : Process := ⟨pid, parent.pid, parent.pgid, parent.sid⟩

def dupTo (fd : Option Nat) (new : Nat) (table : Table (Object Inherited)) : Table (Object Inherited) :=
  match fd with
  | none => table
  | some fd => dup2 fd new table

variable (start : Start Inherited)

/-- `open("/dev/null", O_RDWR)` -/
def openNull (table : Table (Object Inherited)) : Option Nat × Table (Object Inherited) :=
  if start.nullGranted ∧ (install (.null : Object Inherited) table).1 < start.limit then
    (some (install .null table).1, (install .null table).2)
  else (none, table)

inductive Step : State Inherited → Event → State Inherited → Prop where
  | forks {s : State Inherited} (here : s.original = .calling) :
      Step s .forks
        { s with original := .leaving, first := .born, firstProcess := forked start.caller start.first }
  | forkFails {s : State Inherited} (here : s.original = .calling) :
      Step s .forkFails { s with original := .failed }
  | leaves {s : State Inherited} (here : s.original = .leaving) :
      Step s .leaves { s with original := .gone, firstProcess := { s.firstProcess with ppid := 1 } }
  | setsid {s : State Inherited} (here : s.first = .born) (member : s.firstProcess.leadsGroup = false) :
      Step s .setsid
        { s with first := .leader,
                 firstProcess := { s.firstProcess with pgid := s.firstProcess.pid, sid := s.firstProcess.pid } }
  | setsidFails {s : State Inherited} (here : s.first = .born) (leads : s.firstProcess.leadsGroup = true) :
      Step s .setsidFails { s with first := .failed }
  | forksAgain {s : State Inherited} (here : s.first = .leader) :
      Step s .forksAgain
        { s with first := .leaving, second := .born, secondProcess := forked s.firstProcess start.second }
  | forkFailsAgain {s : State Inherited} (here : s.first = .leader) :
      Step s .forkFailsAgain { s with first := .failed }
  | leavesToo {s : State Inherited} (here : s.first = .leaving) :
      Step s .leavesToo { s with first := .gone, secondProcess := { s.secondProcess with ppid := 1 } }
  | chdir {s : State Inherited} (here : s.second = .born) :
      Step s .chdir
        { s with second := .atRoot, cwd := if start.rootGranted then "/".toList else s.cwd }
  | umask {s : State Inherited} (here : s.second = .atRoot) :
      Step s .umask { s with second := .unmasked, umask := 0 }
  | opens {s : State Inherited} (here : s.second = .unmasked) :
      Step s .opens
        { s with second := .opened (openNull start s.table).1, table := (openNull start s.table).2 }
  | dup {s : State Inherited} {fd : Option Nat} (here : s.second = .opened fd) :
      Step s .dup { s with second := .duplicated fd 0, table := dupTo fd 0 s.table }
  | dupMore {s : State Inherited} {fd : Option Nat} {n : Nat} (here : s.second = .duplicated fd n)
      (more : n < 2) :
      Step s .dup { s with second := .duplicated fd (n + 1), table := dupTo fd (n + 1) s.table }
  | drops {s : State Inherited} {fd : Nat} (here : s.second = .duplicated (some fd) 2) (high : fd > 2) :
      Step s .drops { s with second := .returned, table := close fd s.table }
  | keeps {s : State Inherited} {fd : Option Nat} (here : s.second = .duplicated fd 2)
      (low : ∀ n, fd = some n → ¬ n > 2) :
      Step s .keeps { s with second := .returned }

def inheritedTable : Table (Object Inherited) := start.table.map (Option.map Object.inherited)

def initial : State Inherited :=
  ⟨.calling, .unborn, .unborn, start.caller, start.caller, inheritedTable start, start.cwd, start.umask⟩

def system : System (State Inherited) Event := ⟨(· = initial start), Step start⟩

abbrev Run : State Inherited → Prop := Reachable (system start)

def nullFd : Option Nat := (openNull start (inheritedTable start)).1

def Second.rank : Second → Nat
  | .unborn => 0
  | .born => 1
  | .atRoot => 2
  | .unmasked => 3
  | .opened _ => 4
  | .duplicated _ n => 5 + n
  | .returned => 8

def Second.streams : Second → Nat
  | .duplicated _ n => n + 1
  | .returned => 3
  | _ => 0

def Second.result : Second → Option (Option Nat)
  | .opened fd | .duplicated fd _ => some fd
  | _ => none

/-- The descriptors that refer to `/dev/null` at this point. -/
def Redirected (second : Second) (fd : Nat) : Prop :=
  (nullFd start).isSome ∧ (fd < second.streams ∨ second.result = some (some fd))

def First.isEarly : First → Bool
  | .unborn | .born | .leader | .failed => true
  | _ => false

structure Kin (s : State Inherited) : Prop where
  born : s.first = .born → s.firstProcess.pid = start.first ∧ s.firstProcess.leadsGroup = false
  leader : s.first = .leader → s.firstProcess.pid = start.first ∧ s.firstProcess.sid = start.first ∧
    s.firstProcess.pgid = start.first
  second : s.second ≠ .unborn → s.secondProcess.pid = start.second ∧ s.secondProcess.sid = start.first ∧
    s.secondProcess.pgid = start.first
  parent : s.second ≠ .unborn → (s.first = .leaving ∧ s.secondProcess.ppid = start.first) ∨
    (s.first = .gone ∧ s.secondProcess.ppid = 1)
  unborn : s.first = .unborn ↔ s.original = .calling ∨ s.original = .failed
  order : s.first.isEarly = true ↔ s.second = .unborn

structure Surroundings (s : State Inherited) : Prop where
  cwd : s.cwd = if start.rootGranted = true ∧ 2 ≤ s.second.rank then "/".toList else start.cwd
  unmasked : 3 ≤ s.second.rank → s.umask = 0
  untouched : s.second.rank ≤ 3 → s.table = inheritedTable start
  result : ∀ fd, s.second.result = some fd → fd = nullFd start
  few : s.second.streams ≤ 3
  null : ∀ fd, Redirected start s.second fd → lookup s.table fd = some .null
  kept : ∀ fd, ¬ Redirected start s.second fd → lookup s.table fd = lookup (inheritedTable start) fd

section Steps
variable {start : Start Inherited}

theorem openNull_cases (start : Start Inherited) (table : Table (Object Inherited)) :
    openNull start table = (none, table) ∨
      openNull start table = (some (install .null table).1, (install .null table).2) := by
  unfold openNull
  split
  · exact .inr rfl
  · exact .inl rfl

theorem kin_step (before after : State Inherited) (event : Event) (kin : Kin start before)
    (next : Step start before event after) : Kin start after := by
  obtain ⟨born, leader, second, parent, unborn, order⟩ := kin
  have absent : before.first.isEarly = true → ¬ before.second ≠ .unborn :=
    fun early there => there (order.1 early)
  cases next with
  | forks here =>
      have early : before.first.isEarly = true := by
        rw [unborn.2 (.inl here)]
        rfl
      obtain ⟨_, pgid, _⟩ := start.unused
      refine ⟨fun _ => ⟨rfl, decide_eq_false pgid⟩, by simp, second,
        fun there => absurd there (absent early), by simp, ?_⟩
      simp [First.isEarly, order.1 early]
  | forkFails here =>
      refine ⟨born, leader, second, parent, ?_, order⟩
      simp [unborn.2 (.inl here)]
  | leaves here =>
      refine ⟨born, leader, second, parent, ?_, order⟩
      rw [unborn, here]
      simp
  | setsid here member =>
      have early : before.first.isEarly = true := by
        rw [here]
        rfl
      have pid := (born here).1
      refine ⟨by simp, fun _ => ⟨pid, pid, pid⟩, second, fun there => absurd there (absent early), ?_, ?_⟩
      · rw [← unborn, here]
        simp
      · simp [First.isEarly, order.1 early]
  | setsidFails here leads =>
      rw [(born here).2] at leads
      contradiction
  | forksAgain here =>
      obtain ⟨pid, sid, pgid⟩ := leader here
      refine ⟨by simp, by simp, fun _ => ⟨rfl, sid, pgid⟩, fun _ => .inl ⟨rfl, pid⟩, ?_,
        by simp [First.isEarly]⟩
      rw [← unborn, here]
      simp
  | forkFailsAgain here =>
      have early : before.first.isEarly = true := by
        rw [here]
        rfl
      refine ⟨by simp, by simp, second, fun there => absurd there (absent early), ?_, ?_⟩
      · rw [← unborn, here]
        simp
      · simp [First.isEarly, order.1 early]
  | leavesToo here =>
      have late : before.second ≠ .unborn := by
        rw [Ne, ← order, here]
        simp [First.isEarly]
      refine ⟨by simp, by simp, second, fun _ => .inr ⟨rfl, rfl⟩, ?_, ?_⟩
      · rw [← unborn, here]
        simp
      · simp [First.isEarly, late]
  | chdir here | umask here | opens here | dup here | dupMore here | drops here | keeps here =>
      rw [here] at second parent order
      exact ⟨born, leader, fun _ => second (by simp), fun _ => parent (by simp), unborn, by simpa using order⟩

theorem surroundings_dup (s : State Inherited) (fd : Option Nat) (n : Nat) (sound : Surroundings start s)
    (result : s.second.result = some fd) (streams : s.second.streams = n) (more : n < 3) :
    Surroundings start { s with second := .duplicated fd n, table := dupTo fd n s.table } := by
  obtain ⟨cwd, unmasked, _, same, _, null, kept⟩ := sound
  have late : 4 ≤ s.second.rank := by
    revert result
    cases s.second <;> simp only [Second.rank, Second.result, reduceCtorEq, false_implies] <;> omega
  have fit := same fd result
  have redirects : ∀ other, Redirected start (.duplicated fd n) other ↔
      Redirected start s.second other ∨ (fd.isSome = true ∧ other = n) := by
    intro other
    unfold Redirected
    rw [← fit, result, streams]
    simp only [Second.streams, Second.result]
    have below : other < n + 1 ↔ other < n ∨ other = n := by omega
    rw [below]
    tauto
  refine ⟨?_, fun _ => unmasked (by omega), fun early => ?_, ?_, ?_, ?_, ?_⟩
  · have moved : 2 ≤ (Second.duplicated fd n).rank := by
      rw [Second.rank]
      omega
    have earlier : 2 ≤ s.second.rank := by omega
    simp only [cwd, moved, earlier, and_true]
  · simp only [Second.rank] at early
    omega
  · rintro other found
    exact (Option.some.inj found).symm.trans fit
  · simp only [Second.streams]
    omega
  · intro other redirected
    rw [redirects] at redirected
    cases fd with
    | none =>
        rcases redirected with earlier | ⟨impossible, _⟩
        · exact null other earlier
        · contradiction
    | some fd =>
        have there := null fd ⟨by rw [← fit]; rfl, .inr result⟩
        simp only [dupTo]
        rw [lookup_dup2 fd n other _ _ there]
        split
        · rfl
        · rename_i different
          rcases redirected with earlier | ⟨_, same⟩
          · exact null other earlier
          · exact absurd same different
  · intro other untouched
    rw [redirects, not_or] at untouched
    cases fd with
    | none => exact kept other untouched.1
    | some fd =>
        have there := null fd ⟨by rw [← fit]; rfl, .inr result⟩
        simp only [dupTo]
        rw [lookup_dup2 fd n other _ _ there, if_neg (fun same => untouched.2 ⟨rfl, same⟩)]
        exact kept other untouched.1

theorem surroundings_step (before after : State Inherited) (event : Event)
    (sound : Surroundings start before) (fresh : before.first = .leader → before.second = .unborn)
    (next : Step start before event after) : Surroundings start after := by
  have whole := sound
  obtain ⟨cwd, unmasked, untouched, result, few, null, kept⟩ := sound
  cases next with
  | forks | forkFails | leaves | setsid | setsidFails | forkFailsAgain | leavesToo =>
      exact ⟨cwd, unmasked, untouched, result, few, null, kept⟩
  | forksAgain here =>
      rw [fresh here] at cwd untouched null kept
      exact ⟨by simpa [Second.rank] using cwd, by simp [Second.rank], fun _ => untouched (by simp [Second.rank]),
        by simp [Second.result], by simp [Second.streams], null, kept⟩
  | chdir here =>
      rw [here] at cwd untouched null kept
      refine ⟨?_, by simp [Second.rank], fun _ => untouched (by simp [Second.rank]),
        by simp [Second.result], by simp [Second.streams], null, kept⟩
      rw [cwd]
      simp [Second.rank]
  | umask here =>
      rw [here] at cwd untouched null kept
      exact ⟨by simpa [Second.rank] using cwd, fun _ => rfl, fun _ => untouched (by simp [Second.rank]),
        by simp [Second.result], by simp [Second.streams], null, kept⟩
  | opens here =>
      rw [here] at cwd unmasked untouched
      have plain := untouched (by simp [Second.rank])
      refine ⟨by simpa [Second.rank] using cwd, fun _ => unmasked (by simp [Second.rank]),
        by simp [Second.rank], ?_, by simp [Second.streams], ?_, ?_⟩
      · rintro fd found
        rw [nullFd, ← plain]
        exact (Option.some.inj found).symm
      · rintro fd ⟨_, low | same⟩
        · simp [Second.streams] at low
        · rcases openNull_cases start before.table with failed | opened
          · simp [Second.result, failed] at same
          · simp only [Second.result, opened, Option.some.injEq] at same
            simp only [opened]
            rw [lookup_install, if_pos same.symm]
      · intro fd other
        simp only
        rcases openNull_cases start before.table with failed | opened
        · rw [failed, plain]
        · rw [opened, lookup_install, if_neg, plain]
          rintro rfl
          refine other ⟨?_, .inr (by rw [opened]; rfl)⟩
          rw [nullFd, ← plain, opened]
          rfl
  | dup here => exact surroundings_dup before _ 0 whole (by rw [here]; rfl) (by rw [here]; rfl) (by decide)
  | dupMore here more => exact surroundings_dup before _ _ whole (by rw [here]; rfl) (by rw [here]; rfl) (by omega)
  | @drops fd here high =>
      rw [here] at cwd unmasked result null kept
      have fit := result (some fd) rfl
      refine ⟨by simpa [Second.rank] using cwd, fun _ => unmasked (by simp [Second.rank]),
        by simp [Second.rank], by simp [Second.result], by simp [Second.streams], ?_, ?_⟩
      · rintro other ⟨opened, low | same⟩
        · simp only [Second.streams] at low
          rw [lookup_close, if_neg (by omega)]
          exact null other ⟨opened, .inl low⟩
        · simp [Second.result] at same
      · -- the spare descriptor is closed again, as it was before
        intro other free
        rw [lookup_close]
        split
        · rename_i same
          rw [same]
          rcases openNull_cases start (inheritedTable start) with failed | opened
          · rw [nullFd, failed] at fit
            contradiction
          · rw [nullFd, opened] at fit
            rw [Option.some.inj fit, install_free]
        · rename_i different
          apply kept
          rintro ⟨opened, low | same⟩
          · exact free ⟨opened, .inl low⟩
          · exact different (Option.some.inj (Option.some.inj same)).symm
  | @keeps fd here low =>
      rw [here] at cwd unmasked null kept
      refine ⟨by simpa [Second.rank] using cwd, fun _ => unmasked (by simp [Second.rank]),
        by simp [Second.rank], by simp [Second.result], by simp [Second.streams], ?_, ?_⟩
      · rintro other ⟨opened, within | same⟩
        · exact null other ⟨opened, .inl within⟩
        · simp [Second.result] at same
      · intro other free
        apply kept
        rintro ⟨opened, within | same⟩
        · exact free ⟨opened, .inl within⟩
        · refine free ⟨opened, .inl ?_⟩
          have small := low other (Option.some.inj same)
          simp only [Second.streams]
          omega

theorem run_sound (s : State Inherited) (run : Run start s) : Kin start s ∧ Surroundings start s := by
  apply reachable_invariant (system start) (fun s => Kin start s ∧ Surroundings start s) _ _ s run
  · rintro first rfl
    constructor
    · exact ⟨by simp [initial], by simp [initial], by simp [initial], by simp [initial],
        by simp [initial], by simp [initial, First.isEarly]⟩
    · exact ⟨by simp [initial, Second.rank], by simp [initial, Second.rank], fun _ => rfl,
        by simp [initial, Second.result], by simp [initial, Second.streams],
        by simp [initial, Redirected, Second.streams, Second.result], fun _ _ => rfl⟩
  · rintro before event after ⟨kin, kept⟩ next
    refine ⟨kin_step before after event kin next, surroundings_step before after event kept ?_ next⟩
    intro here
    exact kin.order.1 (by rw [here]; rfl)

/-! Every step is progress. -/

def Original.work : Original → Nat
  | .calling => 2
  | .leaving => 1
  | .gone | .failed => 0

def First.work : First → Nat
  | .unborn | .born => 2
  | .leader | .leaving => 1
  | .gone | .failed => 0

def State.work (s : State Inherited) : Nat := s.original.work + s.first.work + (8 - s.second.rank)

/-- The end of a run: a process that could not fork has given up, or both have made way
for the grandchild. -/
def State.Ended (s : State Inherited) : Prop :=
  s.original = .failed ∨
    (s.original = .gone ∧ (s.first = .failed ∨ (s.first = .gone ∧ s.second = .returned)))

theorem step_spends (before after : State Inherited) (event : Event) (kin : Kin start before)
    (next : Step start before event after) : after.work < before.work := by
  unfold State.work
  cases next with
  | forks here =>
      rw [here, kin.unborn.2 (.inl here)]
      simp only [Original.work, First.work]
      omega
  | forksAgain here =>
      have absent := kin.order.1 (by rw [here]; rfl)
      rw [here, absent]
      simp only [First.work, Second.rank]
      omega
  | forkFails here | leaves here =>
      rw [here]
      simp only [Original.work]
      omega
  | setsid here | setsidFails here | forkFailsAgain here | leavesToo here =>
      rw [here]
      simp only [First.work]
      omega
  | chdir here | umask here | opens here | dup here | drops here | keeps here =>
      rw [here]
      simp only [Second.rank]
      omega
  | dupMore here more =>
      rw [here]
      simp only [Second.rank]
      omega

theorem second_moves (s : State Inherited) (sound : Surroundings start s) (there : s.second ≠ .unborn)
    (unfinished : s.second ≠ .returned) : ∃ event after, Step start s event after := by
  cases place : s.second with
  | unborn => exact absurd place there
  | born => exact ⟨_, _, .chdir place⟩
  | atRoot => exact ⟨_, _, .umask place⟩
  | unmasked => exact ⟨_, _, .opens place⟩
  | opened fd => exact ⟨_, _, .dup place⟩
  | returned => exact absurd place unfinished
  | duplicated fd n =>
      have few := sound.few
      rw [place] at few
      simp only [Second.streams] at few
      by_cases more : n < 2
      · exact ⟨_, _, .dupMore place more⟩
      · obtain rfl : n = 2 := by omega
        by_cases high : ∃ spare, fd = some spare ∧ spare > 2
        · obtain ⟨spare, rfl, high⟩ := high
          exact ⟨_, _, .drops place high⟩
        · exact ⟨_, _, .keeps place (fun spare same above => high ⟨spare, same, above⟩)⟩

theorem moves (s : State Inherited) (kin : Kin start s) (sound : Surroundings start s)
    (unfinished : ¬ s.Ended) : ∃ event after, Step start s event after := by
  cases place : s.original with
  | calling => exact ⟨_, _, .forks place⟩
  | leaving => exact ⟨_, _, .leaves place⟩
  | failed => exact absurd (.inl place) unfinished
  | gone =>
      cases child : s.first with
      | unborn =>
          rcases kin.unborn.1 child with other | other <;> rw [place] at other <;> contradiction
      | born =>
          have member := (kin.born child).2
          exact ⟨_, _, .setsid child member⟩
      | leader => exact ⟨_, _, .forksAgain child⟩
      | leaving => exact ⟨_, _, .leavesToo child⟩
      | failed => exact absurd (.inr ⟨place, .inl child⟩) unfinished
      | gone =>
          apply second_moves s sound
          · rw [Ne, ← kin.order, child]
            simp [First.isEarly]
          · exact fun returned => unfinished (.inr ⟨place, .inr ⟨child, returned⟩⟩)

theorem run_progress (start : Start Inherited) :
    Progress (system start) (fun _ => false) State.Ended State.work := by
  apply progress_busy
  · exact fun before event after run next => step_spends before after event (run_sound before run).1 next
  · intro s run unfinished
    obtain ⟨kin, sound⟩ := run_sound s run
    exact moves s kin sound unfinished

end Steps

end LinuxMemory.Daemonise
