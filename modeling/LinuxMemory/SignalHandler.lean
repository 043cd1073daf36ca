import Mathlib.Logic.Function.Basic
import LinuxMemory.PauseLoop

/-!
`08_process_syscalls/06_signal_handler.c` after its two calls of `sigaction`. A
signal is pending or not; while its handler runs it is blocked, the other one is
not (`sa_mask` is empty). A handler runs on the thread of `main`, one statement a
step, and may interrupt the handler of the other signal.
-/

namespace LinuxMemory.SignalHandler

open PauseLoop Transition

inductive Signal where
  | sigint
  | sigterm
  deriving DecidableEq

def Signal.number : Signal → Nat
  | .sigint => 2
  | .sigterm => 15

def message (sig : Signal) : String := if sig = .sigint then "got SIGINT\n" else "got SIGTERM\n"

inductive Stage where
  | setStop
  | setLastsig
  | write
  | ret
  deriving DecidableEq

structure State where
  gStop : Bool
  gLastsig : Nat
  output : List String
  pending : Signal → Bool
  frames : List (Signal × Stage)
  pc : Pc

inductive Event where
  | arrive (sig : Signal)
  | deliver (sig : Signal)
  | handler (stage : Stage)
  | main

inductive Step : State → Event → State → Prop where
  | arrive {s : State} {sig : Signal} :
      Step s (.arrive sig) { s with pending := Function.update s.pending sig true }
  | deliver {s : State} {sig : Signal} (waiting : s.pending sig = true)
      (unblocked : ∀ frame ∈ s.frames, frame.1 ≠ sig) :
      Step s (.deliver sig) { s with
        pending := Function.update s.pending sig false
        frames := (sig, .setStop) :: s.frames
        pc := interrupt s.pc }
  | setStop {s : State} {sig : Signal} {rest : List (Signal × Stage)}
      (here : s.frames = (sig, .setStop) :: rest) :
      Step s (.handler .setStop) { s with gStop := true, frames := (sig, .setLastsig) :: rest }
  | setLastsig {s : State} {sig : Signal} {rest : List (Signal × Stage)}
      (here : s.frames = (sig, .setLastsig) :: rest) :
      Step s (.handler .setLastsig)
        { s with gLastsig := sig.number, frames := (sig, .write) :: rest }
  | write {s : State} {sig : Signal} {rest : List (Signal × Stage)}
      (here : s.frames = (sig, .write) :: rest) :
      Step s (.handler .write)
        { s with output := message sig :: s.output, frames := (sig, .ret) :: rest }
  | ret {s : State} {sig : Signal} {rest : List (Signal × Stage)}
      (here : s.frames = (sig, .ret) :: rest) : Step s (.handler .ret) { s with frames := rest }
  | start {s : State} (idle : s.frames = []) (here : s.pc = .ahead) :
      Step s .main { s with pc := .checking }
  | loop {s : State} {pc : Pc} (idle : s.frames = []) (moves : LoopStep (s.gStop = true) s.pc pc) :
      Step s .main { s with pc := pc }

def initial : State := ⟨false, 0, [], fun _ => false, [], .ahead⟩

def system : System State Event := ⟨(· = initial), Step⟩

abbrev Run : State → Prop := Reachable system

/-- Blocked in `pause` with `g_stop` set and no signal on its way. -/
def Hung (s : State) : Prop :=
  s.pc = .paused ∧ s.gStop = true ∧ ∀ sig, s.pending sig = false

/-- `g_stop` is not set between its read by `main` and the entry to `pause`. -/
def Timely (s : State) : Event → Prop
  | .handler .setStop => s.pc ≠ .entering
  | _ => True

theorem step_effect (before after : State) (event : Event) (next : Step before event after) :
    Effect State.pc (·.gStop = true) (·.frames ≠ []) before after := by
  cases next with
  | arrive => exact .still id Or.inl rfl
  | deliver _ _ => exact .handle id rfl
  | setStop here => exact .still (fun _ => by simp [here]) (fun _ => Or.inr (by simp [here])) rfl
  | setLastsig here => exact .still (fun _ => by simp [here]) Or.inl rfl
  | write here => exact .still (fun _ => by simp [here]) Or.inl rfl
  | ret here => exact .still (fun _ => by simp [here]) Or.inl rfl
  | start idle here => exact .ahead (fun busy => busy idle) here (Or.inr rfl)
  | loop idle moves => exact .loop (fun busy => busy idle) id moves

theorem step_timely (before after : State) (event : Event) (timely : Timely before event)
    (next : Step before event after) :
    PauseLoop.Timely State.pc (·.gStop = true) before after := by
  intro entering told
  cases next with
  | setStop here => exact absurd entering timely
  | arrive => exact told
  | deliver _ _ => exact told
  | setLastsig here => exact told
  | write here => exact told
  | ret here => exact told
  | start idle here => exact told
  | loop idle moves => exact told

theorem never_hung (s : State) (run : Reachable (system.guarded Timely) s) : ¬ Hung s := by
  have awake := timely_awake (system.guarded Timely) State.pc (·.gStop = true) (·.frames ≠ [])
    (by rintro first rfl; exact ⟨rfl, fun busy => busy rfl⟩)
    (fun before event after next => ⟨step_effect before after event next.2,
      step_timely before after event next.1 next.2⟩) s run
  rintro ⟨blocked, told, -⟩
  exact (awake.untold told).2 blocked

/-! Once `g_stop` is set before the entry to `pause`, a run that handles what is
pending and then lets `main` go on hangs. -/

def Late (s : State) : Prop := s.pc = .entering ∧ s.gStop = true

def Unwinds (s : State) (rest : List (Signal × Stage)) : Prop :=
  ∃ events after, Path system s events after ∧ Late after ∧ after.frames = rest ∧
    after.pending = s.pending

section Handler
variable {s middle : State} {event : Event} {sig : Signal} {rest : List (Signal × Stage)}

theorem unwinds_step (next : Step s event middle) (same : middle.pending = s.pending)
    (unwinds : Unwinds middle rest) : Unwinds s rest := by
  obtain ⟨events, after, path, late, frames, pending⟩ := unwinds
  exact ⟨event :: events, after, .cons next path, late, frames, pending.trans same⟩

/-! The statements of `handler`, the last one first. -/

theorem unwinds_ret (here : s.frames = (sig, .ret) :: rest) (late : Late s) : Unwinds s rest :=
  ⟨_, _, .cons (.ret here) .nil, late, rfl, rfl⟩

theorem unwinds_write (here : s.frames = (sig, .write) :: rest) (late : Late s) : Unwinds s rest :=
  unwinds_step (.write here) rfl (unwinds_ret rfl late)

theorem unwinds_setLastsig (here : s.frames = (sig, .setLastsig) :: rest) (late : Late s) :
    Unwinds s rest :=
  unwinds_step (.setLastsig here) rfl (unwinds_write rfl late)

theorem unwinds_setStop (here : s.frames = (sig, .setStop) :: rest) (late : Late s) :
    Unwinds s rest :=
  unwinds_step (.setStop here) rfl (unwinds_setLastsig rfl ⟨late.1, rfl⟩)

theorem innermost_returns (stage : Stage) (here : s.frames = (sig, stage) :: rest) (late : Late s) :
    Unwinds s rest := by
  cases stage with
  | setStop => exact unwinds_setStop here late
  | setLastsig => exact unwinds_setLastsig here late
  | write => exact unwinds_write here late
  | ret => exact unwinds_ret here late

end Handler

theorem handlers_return (frames : List (Signal × Stage)) (s : State) (here : s.frames = frames)
    (late : Late s) : Unwinds s [] := by
  induction frames generalizing s with
  | nil => exact ⟨[], s, .nil, late, here, rfl⟩
  | cons frame rest ih =>
      obtain ⟨events, middle, path, late', frames, same⟩ := innermost_returns frame.2 here late
      obtain ⟨later, after, path', late'', idle, same'⟩ := ih middle frames late'
      exact ⟨_, after, path_append system _ _ _ _ _ path path', late'', idle, same'.trans same⟩

theorem signal_handled (s : State) (sig : Signal) (idle : s.frames = []) (late : Late s) :
    ∃ events after, Path system s events after ∧ Late after ∧ after.frames = [] ∧
      after.pending = Function.update s.pending sig false := by
  cases waiting : s.pending sig with
  | false =>
      -- nothing to handle
      have same : Function.update s.pending sig false = s.pending := by
        rw [← waiting, Function.update_eq_self]
      exact ⟨[], s, .nil, late, idle, same.symm⟩
  | true =>
      have unblocked : ∀ frame ∈ s.frames, frame.1 ≠ sig := by simp [idle]
      have entering : interrupt s.pc = .entering := (interrupt_entering s.pc).mpr late.1
      obtain ⟨events, after, path, late', frames, same⟩ := unwinds_setStop
        (s := { s with pending := Function.update s.pending sig false,
                       frames := (sig, .setStop) :: s.frames, pc := interrupt s.pc })
        rfl ⟨entering, late.2⟩
      exact ⟨_, after, .cons (.deliver waiting unblocked) path, late', frames.trans idle, same⟩

theorem late_hangs (s : State) (late : Late s) :
    ∃ events after, Path system s events after ∧ Hung after := by
  obtain ⟨_, first, path, late, idle, -⟩ := handlers_return s.frames s rfl late
  obtain ⟨_, second, path', late, idle, same⟩ := signal_handled first .sigint idle late
  obtain ⟨_, third, path'', late, idle, same'⟩ := signal_handled second .sigterm idle late
  have enters : LoopStep (third.gStop = true) third.pc .paused := by
    rw [late.1]
    exact .enter
  have quiet : ∀ sig, third.pending sig = false := by
    intro sig
    rw [same', same]
    cases sig <;> simp
  have whole := path_append system _ _ _ _ _ path (path_append system _ _ _ _ _ path' path'')
  exact ⟨_, _, path_append system _ _ _ _ _ whole (.cons (.loop idle enters) .nil), rfl, late.2, quiet⟩

/-- Every step that is not timely makes a hang possible. -/
theorem untimely_hangs (before after : State) (event : Event) (untimely : ¬ Timely before event)
    (next : Step before event after) :
    ∃ events later, Path system after events later ∧ Hung later := by
  cases next with
  | @setStop sig rest here =>
      have entering : before.pc = .entering := Classical.not_not.mp untimely
      exact late_hangs _ ⟨entering, rfl⟩
  | arrive => exact absurd trivial untimely
  | deliver _ _ => exact absurd trivial untimely
  | setLastsig here => exact absurd trivial untimely
  | write here => exact absurd trivial untimely
  | ret here => exact absurd trivial untimely
  | start idle here => exact absurd trivial untimely
  | loop idle moves => exact absurd trivial untimely

theorem late_run_hangs (s : State) (run : Run s) (late : Late s) : ∃ later, Run later ∧ Hung later := by
  obtain ⟨events, later, path, hung⟩ := late_hangs s late
  exact ⟨later, path_reachable system s later events run path, hung⟩

theorem hung_reachable : ∃ s, Run s ∧ Hung s := by
  have start : Run initial := .start rfl
  have checking := Reachable.step start (.start rfl rfl)
  have entering := Reachable.step checking (.loop rfl (.stay (by decide)))
  have arrived := Reachable.step entering (@Step.arrive _ .sigint)
  have handled := Reachable.step arrived (@Step.deliver _ .sigint rfl (by simp [initial]))
  have told := Reachable.step handled (.setStop rfl)
  exact late_run_hangs _ told ⟨rfl, rfl⟩

end LinuxMemory.SignalHandler
