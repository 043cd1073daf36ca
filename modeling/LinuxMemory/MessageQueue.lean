import Mathlib.Order.Nat
import LinuxMemory.PriorityQueue
import LinuxMemory.Transition

/-!
The message queue of `10_ipc_memory/09_mq.c`: the parent sends its messages and
waits for the child, which receives `n` of them. A send blocks while the queue is
full, a receive while it is empty, and the most urgent message is delivered first.
Standard output is a terminal, so that what the child has printed is not lost at `_exit`.
-/

namespace LinuxMemory.MessageQueue

open PriorityQueue Transition

structure Message where
  text : List Char
  prio : Nat

/-- `sizeof buf` in the child. -/
def bufSize : Nat := 64

/-- `struct mq_attr`. `mq_open` wants a queue that can hold a message, and `mq_receive` a
buffer that can hold any message of the queue. -/
structure Attr where
  maxmsg : Nat
  msgsize : Nat
  positive : 0 < maxmsg
  fits : msgsize ≤ bufSize

/-- `mq_send` fails for a longer text or a priority from `MQ_PRIO_MAX` on. -/
def Attr.accepts (attr : Attr) (m : Message) : Bool := m.text.length ≤ attr.msgsize && m.prio < 32768

structure State where
  unsent : List Message
  queue : List Message
  received : List Message
  exited : Bool
  waited : Bool

inductive Event where
  | send (m : Message)
  | refused
  | receive (m : Message)
  | exit
  | wait

inductive Step (attr : Attr) (n : Nat) : State → Event → State → Prop where
  | send {s : State} {m : Message} {rest : List Message} (here : s.unsent = m :: rest)
      (accepted : attr.accepts m = true) (room : s.queue.length < attr.maxmsg) :
      Step attr n s (.send m) { s with unsent := rest, queue := enqueue Message.prio m s.queue }
  -- the parent does not look at what `mq_send` returns
  | refused {s : State} {m : Message} {rest : List Message} (here : s.unsent = m :: rest)
      (bad : attr.accepts m = false) : Step attr n s .refused { s with unsent := rest }
  | receive {s : State} {m : Message} {rest : List Message} (here : s.queue = m :: rest)
      (more : s.received.length < n) :
      Step attr n s (.receive m) { s with queue := rest, received := s.received ++ [m] }
  | exit {s : State} (done : s.received.length = n) (here : s.exited = false) :
      Step attr n s .exit { s with exited := true }
  | wait {s : State} (sent : s.unsent = []) (gone : s.exited = true) (here : s.waited = false) :
      Step attr n s .wait { s with waited := true }

def initial (messages : List Message) : State := ⟨messages, [], [], false, false⟩

def system (attr : Attr) (n : Nat) (messages : List Message) : System State Event :=
  ⟨(· = initial messages), Step attr n⟩

abbrev Run (attr : Attr) (n : Nat) (messages : List Message) : State → Prop :=
  Reachable (system attr n messages)

def a : Attr := ⟨8, 64, by decide, by decide⟩

def low : Message := ⟨"low".toList, 0⟩

def high : Message := ⟨"high".toList, 10⟩

def mid : Message := ⟨"mid".toList, 5⟩

def sends : List Message := [low, high, mid]

def receives : Nat := 3

def State.Finished (s : State) : Prop := s.waited = true

def State.Stuck (attr : Attr) (n : Nat) (s : State) : Prop := ∀ event after, ¬ Step attr n s event after

def Attr.sent (attr : Attr) (messages : List Message) : List Message := messages.filter attr.accepts

/-- What every step keeps: each priority is a queue without loss. -/
structure Sound (attr : Attr) (n : Nat) (messages : List Message) (s : State) : Prop where
  ordered : Ordered Message.prio s.queue
  conserved : ∀ p, rank Message.prio p s.received ++ rank Message.prio p s.queue ++
    rank Message.prio p (attr.sent s.unsent) = rank Message.prio p (attr.sent messages)
  total : s.received.length + s.queue.length + (attr.sent s.unsent).length =
    (attr.sent messages).length
  bounded : s.queue.length ≤ attr.maxmsg
  few : s.received.length ≤ n
  gone : s.exited = true → s.received.length = n
  done : s.waited = true → s.exited = true ∧ s.unsent = []

def State.work (s : State) : Nat :=
  2 * s.unsent.length + s.queue.length + (if s.exited then 0 else 1) + if s.waited then 0 else 1

section Steps
variable {attr : Attr} {n : Nat} {messages : List Message}

theorem sent_cons (m : Message) (rest : List Message) (accepted : attr.accepts m = true) :
    attr.sent (m :: rest) = m :: attr.sent rest := List.filter_cons_of_pos accepted

theorem sound_step (before after : State) (event : Event) (sound : Sound attr n messages before)
    (next : Step attr n before event after) : Sound attr n messages after := by
  obtain ⟨ordered, conserved, total, bounded, few, gone, done⟩ := sound
  cases next with
  | @send m rest here accepted room =>
      rw [here, sent_cons m rest accepted] at conserved total
      refine ⟨ordered_enqueue m _ ordered, ?_, ?_, ?_, few, gone, ?_⟩
      · intro p
        rw [← conserved p, rank_enqueue m _ ordered, rank_cons p m (attr.sent rest)]
        simp only [List.append_assoc]
      · simp only [length_enqueue, List.length_cons] at total ⊢
        omega
      · rw [length_enqueue]
        exact room
      · intro stopped
        rw [(done stopped).2] at here
        contradiction
  | @refused m rest here bad =>
      have skipped : attr.sent (m :: rest) = attr.sent rest :=
        List.filter_cons_of_neg (by simp [bad])
      rw [here, skipped] at conserved total
      refine ⟨ordered, conserved, total, bounded, few, gone, ?_⟩
      intro stopped
      rw [(done stopped).2] at here
      contradiction
  | @receive m rest here more =>
      rw [here] at ordered conserved total bounded
      refine ⟨(List.pairwise_cons.mp ordered).2, ?_, ?_, ?_, ?_, ?_, done⟩
      · intro p
        rw [← conserved p, rank_append, rank_cons p m rest]
        simp only [List.append_assoc]
      · simp only [List.length_append, List.length_cons, List.length_nil] at total ⊢
        omega
      · exact Nat.le_of_succ_le bounded
      · rw [List.length_append]
        exact more
      · intro stopped
        have all := gone stopped
        omega
  | exit all here => exact ⟨ordered, conserved, total, bounded, few, fun _ => all,
      fun stopped => ⟨rfl, (done stopped).2⟩⟩
  | wait sent gone' here => exact ⟨ordered, conserved, total, bounded, few, gone, fun _ => ⟨gone', sent⟩⟩

theorem run_sound (s : State) (run : Run attr n messages s) : Sound attr n messages s := by
  apply reachable_invariant (system attr n messages) (Sound attr n messages) _ _ s run
  · rintro first rfl
    refine ⟨List.Pairwise.nil, fun p => rfl, ?_, Nat.zero_le _, Nat.zero_le _, ?_, ?_⟩
    · simp [initial]
    · simp [initial]
    · simp [initial]
  · exact fun before event after => sound_step before after event

theorem step_spends (before after : State) (event : Event) (next : Step attr n before event after) :
    after.work < before.work := by
  unfold State.work
  cases next with
  | send here accepted room =>
      simp only [here, List.length_cons, length_enqueue]
      omega
  | refused here bad =>
      simp only [here, List.length_cons]
      omega
  | receive here more =>
      simp only [here, List.length_cons]
      omega
  | exit done here =>
      simp only [here, Bool.false_eq_true, ↓reduceIte]
      omega
  | wait sent gone here =>
      simp only [here, Bool.false_eq_true, ↓reduceIte]
      omega

theorem queued_sent (before after : State) (events : List Event) (m : Message)
    (path : Path (system attr n messages) before events after) (there : m ∈ after.queue)
    (absent : m ∉ before.queue) : .send m ∈ events := by
  induction path with
  | nil => exact absurd there absent
  | @cons before middle after event events next _ ih =>
      by_cases here : m ∈ middle.queue
      · cases next with
        | send =>
            rcases (mem_enqueue _ m _).mp here with rfl | old
            · exact List.mem_cons_self
            · exact absurd old absent
        | receive shape more =>
            rw [shape] at absent
            exact absurd (List.mem_cons_of_mem _ here) absent
        | refused | exit | wait => exact absurd here absent
      · exact List.mem_cons_of_mem _ (ih there here)

/-- Once everything is sent, receiving only moves the queue to its receiver. -/
theorem drained (before after : State) (events : List Event)
    (path : Path (system attr n messages) before events after) (sent : before.unsent = []) :
    after.received ++ after.queue = before.received ++ before.queue := by
  induction path with
  | nil => rfl
  | cons next _ ih =>
      cases next with
      | send here => rw [sent] at here; contradiction
      | refused here => rw [sent] at here; contradiction
      | receive here more =>
          rw [ih sent, here]
          simp
      | exit | wait => exact ih sent

theorem moves (s : State) (sound : Sound attr n messages s) (unfinished : ¬ s.Finished)
    (enough : n ≤ (attr.sent messages).length) (most : (attr.sent messages).length ≤ n + attr.maxmsg) :
    ∃ event after, Step attr n s event after := by
  have here : s.waited = false := by simpa [State.Finished] using unfinished
  have positive := attr.positive
  have total := sound.total
  by_cases more : s.received.length < n
  · cases shape : s.queue with
    | cons m rest => exact ⟨_, _, .receive shape more⟩
    | nil =>
        have room : s.queue.length < attr.maxmsg := by rw [shape]; exact positive
        cases left : s.unsent with
        | nil =>
            rw [shape, left] at total
            simp only [Attr.sent, List.length_nil, List.filter_nil] at total enough
            omega
        | cons m rest =>
            cases fine : attr.accepts m with
            | true => exact ⟨_, _, .send left fine room⟩
            | false => exact ⟨_, _, .refused left fine⟩
  · have all : s.received.length = n := Nat.le_antisymm sound.few (by omega)
    cases gone : s.exited with
    | false => exact ⟨_, _, .exit all gone⟩
    | true =>
        cases left : s.unsent with
        | nil => exact ⟨_, _, .wait left gone here⟩
        | cons m rest =>
            cases fine : attr.accepts m with
            | false => exact ⟨_, _, .refused left fine⟩
            | true =>
                -- the queue has room for what the child leaves there
                rw [left, sent_cons m rest fine, List.length_cons] at total
                exact ⟨_, _, .send left fine (by omega)⟩

end Steps

/-- In every interleaving each priority is a queue without loss or duplicate, and a
message is received before a more urgent one only if that one was sent later. -/
theorem delivery_order (attr : Attr) (n : Nat) (messages : List Message) (events : List Event)
    (s : State) (path : Path (system attr n messages) (initial messages) events s) :
    (∀ p, rank Message.prio p s.received ++ rank Message.prio p s.queue ++
      rank Message.prio p (attr.sent s.unsent) = rank Message.prio p (attr.sent messages)) ∧
    ∀ front middle rest first second, events = front ++ .receive first :: middle ++ .receive second :: rest →
      first.prio < second.prio → .send second ∈ middle := by
  refine ⟨(run_sound s (path_reachable _ _ _ _ (.start rfl) path)).conserved, ?_⟩
  rintro front middle rest first second rfl urgent
  rw [List.append_assoc] at path
  obtain ⟨s₁, before, later⟩ := path_split _ _ _ _ _ path
  have run := path_reachable _ _ _ _ (.start rfl) before
  have ordered := (run_sound s₁ run).ordered
  cases later with
  | cons next later =>
      cases next with
      | @receive _ remaining shape more =>
          obtain ⟨s₂, between, last⟩ := path_split _ _ _ _ _ later
          cases last with
          | cons next' _ =>
              cases next' with
              | receive shape' more' =>
                  apply queued_sent _ _ _ second between
                  · rw [shape']
                    exact List.mem_cons_self
                  · -- what is left in the queue is at most as urgent as the first one
                    intro waiting
                    rw [shape] at ordered
                    have least := (List.pairwise_cons.mp ordered).1 second waiting
                    omega

theorem delivery_order_quick : ∃ s, Path (system a receives sends) (initial sends)
    ([.send low] ++ .receive low :: [.send high] ++ .receive high :: []) s ∧
      s.received = [low, high] ∧ .send high ∈ [Event.send high] := by
  have path : Path (system a receives sends) (initial sends)
      ([.send low] ++ .receive low :: [.send high] ++ .receive high :: [])
      ⟨[mid], [], [low, high], false, false⟩ :=
    .cons (.send rfl rfl (by decide)) (.cons (.receive rfl (by decide))
      (.cons (.send rfl rfl (by decide)) (.cons (.receive rfl (by decide)) .nil)))
  exact ⟨_, path, rfl, (delivery_order a receives sends _ _ path).2 [.send low] [.send high] [] low high
    rfl (by decide)⟩

/-- When all messages are in the queue before the first one is taken out, they come
out sorted by priority. -/
theorem patient_sorted (attr : Attr) (n : Nat) (messages : List Message) (events : List Event)
    (full after : State) (run : Run attr n messages full) (sent : full.unsent = [])
    (untouched : full.received = []) (path : Path (system attr n messages) full events after) :
    after.received ++ after.queue =
      (attr.sent messages).mergeSort fun a b => decide (b.prio ≤ a.prio) := by
  have sound := run_sound full run
  have sorted : full.queue = (attr.sent messages).mergeSort fun a b => decide (b.prio ≤ a.prio) := by
    rw [← fill_sorts]
    obtain ⟨ordered, ranks⟩ := fill_ranks (attr.sent messages) []
      (List.Pairwise.nil : Ordered Message.prio [])
    apply ordered_unique _ _ sound.ordered ordered
    intro p
    rw [ranks p, ← sound.conserved p, sent, untouched]
    simp [rank, Attr.sent]
  rw [← sorted]
  rw [drained full after events path sent, untouched, List.nil_append]

theorem patient_sorted_sends : ∃ s, Run a receives sends s ∧ s.received = [high, mid, low] ∧
    s.received ++ s.queue = sends.mergeSort fun a b => decide (b.prio ≤ a.prio) := by
  have sent : Run a receives sends ⟨[], [high, mid, low], [], false, false⟩ :=
    path_reachable _ _ _ _ (.start rfl) (.cons (.send rfl rfl (by decide))
      (.cons (.send rfl rfl (by decide)) (.cons (.send rfl rfl (by decide)) .nil)))
  have path : Path (system a receives sends) ⟨[], [high, mid, low], [], false, false⟩
      [.receive high, .receive mid, .receive low] ⟨[], [], [high, mid, low], false, false⟩ :=
    .cons (.receive rfl (by decide)) (.cons (.receive rfl (by decide))
      (.cons (.receive rfl (by decide)) .nil))
  exact ⟨_, path_reachable _ _ _ _ sent path, rfl,
    patient_sorted a receives sends _ _ _ sent rfl rfl path⟩

/-- No interleaving blocks, exactly if the child receives no more messages than are
sent and leaves no more behind than the queue holds. -/
theorem completes_iff (attr : Attr) (n : Nat) (messages : List Message) :
    (∀ s, Run attr n messages s → s.Stuck attr n → s.Finished) ↔
      n ≤ (attr.sent messages).length ∧ (attr.sent messages).length ≤ n + attr.maxmsg := by
  constructor
  · intro completes
    obtain ⟨events, s, path, stuck⟩ :=
      work_stops (system attr n messages) State.work
        (fun before event after => step_spends before after event) (initial messages)
    have run := path_reachable _ _ _ _ (.start rfl) path
    have sound := run_sound s run
    obtain ⟨gone, left⟩ := sound.done (completes s run stuck)
    have all := sound.gone gone
    have total := sound.total
    have bounded := sound.bounded
    rw [left] at total
    simp only [Attr.sent, List.filter_nil, List.length_nil] at total ⊢
    omega
  · rintro ⟨enough, most⟩ s run stuck
    by_contra unfinished
    obtain ⟨event, after, next⟩ := moves s (run_sound s run) unfinished enough most
    exact stuck event after next

end LinuxMemory.MessageQueue
