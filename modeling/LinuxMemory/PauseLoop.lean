import LinuxMemory.Transition

/-!
A thread that runs `while (!done) pause()` beside signal handlers that make
`done` true. The read of `done` and the entry to `pause` are two steps. `pause`
returns only after a handler run that started once it had been entered, and the
thread takes no step of its own while a handler runs on it.
-/

namespace LinuxMemory.PauseLoop

open Transition

/-- Where the thread is: the step it takes next. -/
inductive Pc where
  | ahead
  -- next is the read of the variable
  | checking
  -- the read said to go on; next is the entry to `pause`
  | entering
  | paused
  -- a handler has started since `pause` was entered; next is its return
  | woken
  | finished
  deriving DecidableEq

def interrupt : Pc → Pc
  | .paused => .woken
  | other => other

inductive LoopStep (done : Prop) : Pc → Pc → Prop where
  | leave (holds : done) : LoopStep done .checking .finished
  | stay (fails : ¬ done) : LoopStep done .checking .entering
  | enter : LoopStep done .entering .paused
  | resume : LoopStep done .woken .checking

variable {State Event : Type}

/-- What one step of a program with such a loop is to the loop: a step of the
thread, the start of a handler, or something under which the thread stands
still, where only a running handler makes `done` true. -/
inductive Effect (pc : State → Pc) (done running : State → Prop) (before after : State) : Prop where
  | ahead (idle : ¬ running after) (start : pc before = .ahead)
      (next : pc after = .ahead ∨ pc after = .checking)
  | loop (idle : ¬ running after) (same : done after → done before)
      (moves : LoopStep (done before) (pc before) (pc after))
  | handle (same : done after → done before) (moves : pc after = interrupt (pc before))
  | still (kept : running after → running before) (caused : done after → done before ∨ running before)
      (stands : pc after = pc before)

/-- The step does not make `done` true between the read of the variable and the
entry to `pause`. -/
def Timely (pc : State → Pc) (done : State → Prop) (before after : State) : Prop :=
  pc before = .entering → done after → done before

/-- No handler runs under a blocked thread, and a thread that is about to block
has yet to be told. -/
structure Awake (pc : State → Pc) (done running : State → Prop) (s : State) : Prop where
  unblocked : running s → pc s ≠ .paused
  untold : done s → pc s ≠ .entering ∧ pc s ≠ .paused

section Steps
variable {pc : State → Pc} {done running : State → Prop} {before after : State}

theorem interrupt_ne (here : Pc) : interrupt here ≠ .paused := by
  cases here <;> simp [interrupt]

theorem interrupt_entering (here : Pc) : interrupt here = .entering ↔ here = .entering := by
  cases here <;> simp [interrupt]

/-- One step. Only a handler that runs can tell a thread anew: it does not run
under a blocked one, and a timely one does not tell a thread about to block. -/
theorem awake_step (awake : Awake pc done running before) (effect : Effect pc done running before after)
    (timely : Timely pc done before after) : Awake pc done running after := by
  rcases awake with ⟨unblocked, untold⟩
  cases effect with
  | ahead idle start next =>
      constructor
      · exact fun busy => absurd busy idle
      · intro _
        rcases next with same | begins
        · simp [same]
        · simp [begins]
  | loop idle same moves =>
      refine ⟨fun busy => absurd busy idle, fun told => ?_⟩
      have early := same told
      have untold := untold early
      generalize pc before = here at moves untold
      generalize pc after = there at moves
      cases moves with
      | leave => simp
      | stay fails => exact absurd early fails
      | enter => exact absurd rfl untold.1
      | resume => simp
  | handle same moves =>
      have notPaused : pc after ≠ .paused := by
        rw [moves]
        exact interrupt_ne (pc before)
      constructor
      · exact fun _ => notPaused
      · intro told
        have early := untold (same told)
        constructor
        · intro entering
          rw [moves] at entering
          exact early.1 ((interrupt_entering (pc before)).mp entering)
        · exact notPaused
  | still kept caused stands =>
      constructor
      · intro busy
        rw [stands]
        exact unblocked (kept busy)
      · intro told
        rw [stands]
        rcases caused told with early | busy
        · exact untold early
        · exact ⟨fun entering => (untold (timely entering told)).1 entering, unblocked busy⟩

end Steps

/-- A program whose steps all are timely never blocks once `done` holds. -/
theorem timely_awake (system : System State Event) (pc : State → Pc) (done running : State → Prop)
    (start : ∀ s, system.start s → pc s = .ahead ∧ ¬ running s)
    (effect : ∀ before event after, system.step before event after →
      Effect pc done running before after ∧ Timely pc done before after)
    (s : State) (run : Reachable system s) : Awake pc done running s := by
  apply reachable_invariant system (Awake pc done running) _ _ s run
  · intro first initial
    obtain ⟨here, idle⟩ := start first initial
    exact ⟨fun busy => absurd busy idle, fun _ => by simp [here]⟩
  · intro before event after awake next
    obtain ⟨shape, timely⟩ := effect before event after next
    exact awake_step awake shape timely

end LinuxMemory.PauseLoop
