import LinuxMemory.Transition
import LinuxMemory.Word

/-!
Pages filled on demand from user space, as in `13_advanced/03_userfaultfd.c` with a
region of `n` pages of `2 ^ k` bytes. `main` reads the first byte of one page after
the other; a read of a missing page blocks it until `fault_thread` has received the
message about the fault and has filled the page from `fillbuf`. At the end `main`
unmaps the region and closes the descriptor; its return stops `fault_thread` wherever
that is, which only cuts a run short.
-/

namespace LinuxMemory.Userfault

open Transition

abbrev Byte := UInt8

/-- The region that `mmap` returned, and what lies behind `fillbuf` on the stack, which
`UFFDIO_COPY` reads for pages larger than that. -/
structure Setup where
  base : Nat
  n : Nat
  k : Nat
  aligned : base % 2 ^ k = 0
  small : k ≤ 63
  below : base + n * 2 ^ k < 2 ^ 64
  stack : Nat → Byte

def bufSize : Nat := 2 ^ 16

def magic : Byte := 85

inductive Main where
  | loop (i : Nat)
  | blocked (i : Nat)
  | finished

-- `looping` is at the head of the loop, `polling` in `poll`, and `holding` has a message
inductive Handler where
  | looping
  | polling
  | readable
  | holding (address : Nat)
  | broken

/-- `got` is what `main` has read, and `fills` are the pages that `UFFDIO_COPY` has filled. -/
structure State where
  pages : Nat → Option (Nat → Byte)
  messages : List Nat
  main : Main
  handler : Handler
  got : List Byte
  fills : List Nat

inductive Event where
  | read | fault | wake | finish | calls | invalid | poll | receive | fails | copy | taken

section Program
variable (setup : Setup)

def Setup.pg : Nat := 2 ^ setup.k

def Setup.fillbuf (j : Nat) : Byte := if j < bufSize then magic else setup.stack j

def Setup.faultPage (address : Nat) : Nat := address &&& Word.not (setup.pg - 1)

def Setup.index (address : Nat) : Nat := (address - setup.base) / setup.pg

inductive Step : State → Event → State → Prop where
  | read {s : State} {i : Nat} {page : Nat → Byte} (here : s.main = .loop i) (more : i < setup.n)
      (there : s.pages i = some page) :
      Step s .read { s with main := .loop (i + 1), got := s.got ++ [page 0] }
  | fault {s : State} {i : Nat} (here : s.main = .loop i) (more : i < setup.n) (missing : s.pages i = none) :
      Step s .fault
        { s with main := .blocked i, messages := s.messages ++ [setup.base + i * setup.pg] }
  | wake {s : State} {i : Nat} (here : s.main = .blocked i) (there : (s.pages i).isSome = true) :
      Step s .wake { s with main := .loop i }
  -- `munmap` and `close`
  | finish {s : State} (here : s.main = .loop setup.n) :
      Step s .finish { s with main := .finished, pages := fun _ => none }
  | calls {s : State} (here : s.handler = .looping) (opened : s.main ≠ .finished) :
      Step s .calls { s with handler := .polling }
  -- `poll` returns at once for a closed descriptor, but does not notice a later `close`
  | invalid {s : State} (here : s.handler = .looping) (closed : s.main = .finished) :
      Step s .invalid { s with handler := .readable }
  | poll {s : State} (here : s.handler = .polling) (event : s.messages ≠ []) :
      Step s .poll { s with handler := .readable }
  | receive {s : State} {address : Nat} {rest : List Nat} (here : s.handler = .readable)
      (opened : s.main ≠ .finished) (first : s.messages = address :: rest) :
      Step s .receive { s with messages := rest, handler := .holding address }
  -- the descriptor does not block, so that `read` fails without a message as for a closed one
  | fails {s : State} (here : s.handler = .readable) (bad : s.messages = [] ∨ s.main = .finished) :
      Step s .fails { s with handler := .broken }
  | copy {s : State} {address : Nat} (here : s.handler = .holding address) (mapped : s.main ≠ .finished)
      (missing : s.pages (setup.index (setup.faultPage address)) = none) :
      Step s .copy
        { s with pages := fun i => if i = setup.index (setup.faultPage address) then some setup.fillbuf
                   else s.pages i,
                 handler := .looping, fills := s.fills ++ [setup.index (setup.faultPage address)] }
  -- `UFFDIO_COPY` fails for a page that is there, or is not mapped
  | taken {s : State} {address : Nat} (here : s.handler = .holding address)
      (there : (s.pages (setup.index (setup.faultPage address))).isSome = true ∨ s.main = .finished) :
      Step s .taken { s with handler := .broken }

def initial : State := ⟨fun _ => none, [], .loop 0, .looping, [], []⟩

def system : System State Event := ⟨(· = initial), Step setup⟩

abbrev Run : State → Prop := Reachable (system setup)

end Program

def Main.page (n : Nat) : Main → Nat
  | .loop i | .blocked i => i
  | .finished => n

def Main.waiting : Main → Option Nat
  | .blocked i => some i
  | _ => none

/-- The faults that have been raised and not been answered. -/
def State.duty (s : State) : List Nat :=
  match s.handler with
  | .holding address => address :: s.messages
  | _ => s.messages

/-- What every step keeps: the pages before the one that `main` is at are filled, and
that one is missing, asked for exactly once, or filled. -/
structure Sound (setup : Setup) (s : State) : Prop where
  fills : s.fills = List.range s.fills.length
  low : s.main.page setup.n ≤ s.fills.length
  high : s.fills.length ≤ s.main.page setup.n + 1
  within : s.fills.length ≤ setup.n
  pages : s.main ≠ .finished → ∀ i, s.pages i = if i < s.fills.length then some setup.fillbuf else none
  unmapped : s.main = .finished → ∀ i, s.pages i = none
  duty : s.duty = if s.main.waiting = some s.fills.length then
    [setup.base + s.fills.length * setup.pg] else []
  asked : ∀ i, s.main.waiting = some i → i < setup.n
  ready : s.handler = .readable → s.main ≠ .finished → s.messages ≠ []
  working : s.handler = .broken → s.main = .finished
  got : s.got = List.replicate (s.main.page setup.n) magic

section Steps
variable {setup : Setup}

/-- The address of a fault leads back to its page. -/
theorem index_faultPage (i : Nat) (inside : i < setup.n) :
    setup.index (setup.faultPage (setup.base + i * setup.pg)) = i := by
  have positive : 0 < 2 ^ setup.k := Nat.two_pow_pos setup.k
  have room : i * 2 ^ setup.k ≤ setup.n * 2 ^ setup.k := Nat.mul_le_mul_right _ (Nat.le_of_lt inside)
  have below := setup.below
  have small := setup.small
  have start : setup.faultPage (setup.base + i * setup.pg) = setup.base + i * setup.pg := by
    unfold Setup.faultPage Setup.pg
    rw [Word.and_not_low setup.k _ (by omega) (by omega)]
    apply Nat.div_mul_cancel
    exact Nat.dvd_add (Nat.dvd_of_mod_eq_zero setup.aligned) (Nat.dvd_mul_left _ _)
  unfold Setup.index
  rw [start, Nat.add_sub_cancel_left]
  exact Nat.mul_div_cancel i positive

theorem fillbuf_first : setup.fillbuf 0 = magic := rfl

theorem sound_message (s : State) (sound : Sound setup s) (address : Nat) (rest : List Nat)
    (pending : s.duty = address :: rest) : rest = [] ∧ s.main.waiting = some s.fills.length ∧
      setup.index (setup.faultPage address) = s.fills.length := by
  have duty := sound.duty
  rw [pending] at duty
  split at duty
  · rename_i waiting
    obtain ⟨rfl, rfl⟩ := List.cons.inj duty
    exact ⟨rfl, waiting, index_faultPage _ (sound.asked _ waiting)⟩
  · contradiction

theorem sound_closed (s : State) (sound : Sound setup s) (closed : s.main = .finished) : s.duty = [] := by
  rw [sound.duty, closed]
  rfl

/-- The page of a message is missing until the message is answered, and `main` waits for it. -/
theorem sound_holding (s : State) (sound : Sound setup s) (address : Nat)
    (here : s.handler = .holding address) : s.main.waiting = some s.fills.length ∧
      s.pages (setup.index (setup.faultPage address)) = none := by
  have pending : s.duty = address :: s.messages := by
    unfold State.duty
    rw [here]
  obtain ⟨_, waiting, page⟩ := sound_message s sound address _ pending
  refine ⟨waiting, ?_⟩
  rw [page, sound.pages, if_neg (Nat.lt_irrefl _)]
  rintro closed
  rw [closed] at waiting
  contradiction

theorem sound_untaken (s : State) (sound : Sound setup s) (address : Nat) (here : s.handler = .holding address) :
    ¬ ((s.pages (setup.index (setup.faultPage address))).isSome = true ∨ s.main = .finished) := by
  obtain ⟨waiting, missing⟩ := sound_holding s sound address here
  rintro (there | closed)
  · rw [missing] at there
    contradiction
  · rw [closed] at waiting
    contradiction

theorem duty_raised (s : State) (main : Main) (address : Nat) (idle : s.duty = []) :
    State.duty { s with main := main, messages := s.messages ++ [address] } = [address] := by
  unfold State.duty at idle ⊢
  cases place : s.handler with
  | holding pending => simp [place] at idle
  | _ =>
      simp only [place] at idle
      simp [idle]

theorem sound_missing (s : State) (sound : Sound setup s) (i : Nat) (here : s.main = .loop i)
    (missing : s.pages i = none) : s.fills.length = i ∧ s.duty = [] := by
  have low := sound.low
  have high := sound.high
  have duty := sound.duty
  rw [here] at low high duty
  simp only [Main.page] at low high
  refine ⟨?_, duty⟩
  rw [sound.pages (by rw [here]; simp) i] at missing
  split at missing
  · contradiction
  · omega

theorem sound_there (s : State) (sound : Sound setup s) (opened : s.main ≠ .finished) (i : Nat)
    (page : Nat → Byte) (there : s.pages i = some page) : i < s.fills.length ∧ page = setup.fillbuf := by
  rw [sound.pages opened i] at there
  split at there
  · rename_i filled
    exact ⟨filled, (Option.some.inj there).symm⟩
  · contradiction

theorem sound_step (before after : State) (event : Event) (sound : Sound setup before)
    (next : Step setup before event after) : Sound setup after := by
  have whole := sound
  obtain ⟨fills, low, high, within, pages, unmapped, duty, asked, ready, working, got⟩ := sound
  cases next with
  | @read i page here more there =>
      have opened : before.main ≠ .finished := by simp [here]
      obtain ⟨filled, content⟩ := sound_there before whole opened i page there
      rw [here] at low high duty got
      simp only [Main.page] at low high
      refine ⟨fills, filled, ?_, within, fun _ => pages opened, by simp, duty, by simp [Main.waiting],
        fun here _ => ready here opened, fun here => absurd (working here) opened, ?_⟩
      · show before.fills.length ≤ i + 1 + 1
        omega
      · show before.got ++ [page 0] = List.replicate (i + 1) magic
        rw [got, content, fillbuf_first, List.replicate_succ']
        rfl
  | @fault i here more missing =>
      obtain ⟨last, idle⟩ := sound_missing before whole i here missing
      have opened : before.main ≠ .finished := by simp [here]
      rw [here] at low high got
      refine ⟨fills, low, high, within, fun _ => pages opened, by simp, ?_, ?_, by simp,
        fun here => absurd (working here) opened, got⟩
      · rw [if_pos (by rw [last]; rfl), last]
        exact duty_raised before _ _ idle
      · rintro j same
        cases same
        exact more
  | @wake i here there =>
      have opened : before.main ≠ .finished := by simp [here]
      obtain ⟨page, there⟩ := Option.isSome_iff_exists.1 there
      obtain ⟨filled, _⟩ := sound_there before whole opened i page there
      rw [here] at low high duty got
      refine ⟨fills, low, high, within, fun _ => pages opened, by simp, ?_, by simp [Main.waiting],
        fun here _ => ready here opened, fun here => absurd (working here) opened, got⟩
      refine Eq.trans duty ?_
      rw [if_neg (by simp [Main.waiting]; omega), if_neg (by simp [Main.waiting])]
  | finish here =>
      rw [here] at low high duty got
      exact ⟨fills, low, high, within, by simp, fun _ _ => rfl, duty, by simp [Main.waiting], by simp,
        fun _ => rfl, got⟩
  | calls here opened =>
      refine ⟨fills, low, high, within, pages, unmapped, ?_, asked, by simp, by simp, got⟩
      unfold State.duty at duty ⊢
      rw [here] at duty
      exact duty
  | invalid here closed =>
      refine ⟨fills, low, high, within, pages, unmapped, ?_, asked, fun _ opened => absurd closed opened,
        by simp, got⟩
      unfold State.duty at duty ⊢
      rw [here] at duty
      exact duty
  | poll here event =>
      refine ⟨fills, low, high, within, pages, unmapped, ?_, asked, fun _ _ => event, by simp, got⟩
      unfold State.duty at duty ⊢
      rw [here] at duty
      exact duty
  | @receive address rest here opened first =>
      have pending : before.duty = address :: rest := by
        unfold State.duty
        rw [here]
        exact first
      refine ⟨fills, low, high, within, pages, unmapped, ?_, asked, by simp, by simp, got⟩
      exact pending.symm.trans duty
  | fails here bad =>
      have closed : before.main = .finished := by
        rcases bad with empty | closed
        · by_contra opened
          exact ready here opened empty
        · exact closed
      refine ⟨fills, low, high, within, pages, unmapped, ?_, asked, by simp, fun _ => closed, got⟩
      unfold State.duty at duty ⊢
      rw [here] at duty
      exact duty
  | @copy address here mapped missing =>
      have pending : before.duty = address :: before.messages := by
        unfold State.duty
        rw [here]
      obtain ⟨last, waiting, page⟩ := sound_message before whole address _ pending
      have inside := asked _ waiting
      rw [page]
      have longer : (before.fills ++ [before.fills.length]).length = before.fills.length + 1 := by simp
      have here' : before.main.page setup.n = before.fills.length := by
        cases place : before.main with
        | blocked i =>
            rw [place] at waiting
            exact Option.some.inj waiting
        | loop i => rw [place] at waiting; contradiction
        | finished => exact absurd place mapped
      refine ⟨?_, ?_, ?_, ?_, fun _ => ?_, fun closed => absurd closed mapped, ?_, asked, by simp, by simp, got⟩
      · show before.fills ++ [before.fills.length] = List.range _
        rw [longer, List.range_succ, ← fills]
      · show before.main.page setup.n ≤ (before.fills ++ [before.fills.length]).length
        omega
      · show (before.fills ++ [before.fills.length]).length ≤ before.main.page setup.n + 1
        omega
      · show (before.fills ++ [before.fills.length]).length ≤ setup.n
        omega
      · intro i
        show (if i = before.fills.length then _ else before.pages i) = if i < _ then _ else _
        rw [longer, pages mapped i]
        by_cases same : i = before.fills.length
        · rw [if_pos same, if_pos (by omega)]
        · rw [if_neg same]
          have shift : i < before.fills.length + 1 ↔ i < before.fills.length := by omega
          simp only [shift]
      · show before.messages = if before.main.waiting = some _ then _ else _
        rw [longer, waiting, if_neg (by simp), last]
  | taken here there => exact absurd there (sound_untaken before whole _ here)

theorem run_sound (s : State) (run : Run setup s) : Sound setup s := by
  apply reachable_invariant (system setup) (Sound setup) _ _ s run
  · rintro first rfl
    exact ⟨rfl, Nat.le_refl _, Nat.zero_le _, Nat.zero_le _, fun _ _ => rfl, fun _ _ => rfl, rfl,
      by simp [initial, Main.waiting], by simp [initial], by simp [initial], rfl⟩
  · exact fun before event after => sound_step before after event

/-! Every step is progress: a page costs seven steps at most. -/

def Handler.work (messages : List Nat) : Handler → Nat
  | .looping => 2
  | .polling => 1
  | .readable => if messages = [] then 1 else 0
  | .holding _ => 3
  | .broken => 0

def Main.work (n : Nat) : Main → Nat
  | .loop i => n - i + 1
  | .blocked i => n - i + 2
  | .finished => 0

def State.work (setup : Setup) (s : State) : Nat :=
  6 * (setup.n - (s.fills.length + s.duty.length)) + 4 * s.messages.length + s.handler.work s.messages +
    s.main.work setup.n

def State.Ended (s : State) : Prop :=
  s.main = .finished ∧ (s.handler = .polling ∨ s.handler = .broken)

theorem step_spends (before after : State) (event : Event) (sound : Sound setup before)
    (next : Step setup before event after) : after.work setup < before.work setup := by
  unfold State.work
  cases next with
  | read here more there =>
      simp only [here, Main.work, State.duty]
      omega
  | @fault i here more missing =>
      obtain ⟨last, idle⟩ := sound_missing before sound i here missing
      have spared : before.handler.work (before.messages ++ [setup.base + i * setup.pg]) ≤
          before.handler.work before.messages := by
        cases before.handler <;> simp [Handler.work]
      rw [duty_raised before _ _ idle, idle]
      simp only [here, Main.work, List.length_nil, List.length_append, List.length_singleton]
      omega
  | wake here there =>
      simp only [here, Main.work, State.duty]
      omega
  | finish here =>
      simp only [here, Main.work, State.duty]
      omega
  | calls here opened =>
      simp only [here, Handler.work, State.duty]
      omega
  | invalid here closed =>
      have empty := sound_closed before sound closed
      simp only [State.duty, here] at empty
      simp only [here, Handler.work, State.duty, empty, ↓reduceIte]
      omega
  | poll here event =>
      simp only [here, Handler.work, State.duty, event, ↓reduceIte]
      omega
  | receive here opened first =>
      simp only [here, first, Handler.work, State.duty, List.length_cons]
      omega
  | fails here bad =>
      have empty : before.messages = [] := by
        rcases bad with empty | closed
        · exact empty
        · simpa only [State.duty, here] using sound_closed before sound closed
      simp only [here, Handler.work, State.duty, empty, ↓reduceIte]
      omega
  | copy here mapped missing =>
      simp only [here, Handler.work, State.duty, List.length_append, List.length_cons, List.length_nil]
      omega
  | taken here there => exact absurd there (sound_untaken before sound _ here)

theorem loop_moves (s : State) (sound : Sound setup s) (i : Nat) (place : s.main = .loop i) :
    ∃ event after, Step setup s event after := by
  have low := sound.low
  rw [place] at low
  by_cases more : i < setup.n
  · cases there : s.pages i with
    | some page => exact ⟨_, _, .read place more there⟩
    | none => exact ⟨_, _, .fault place more there⟩
  · have last : i = setup.n := Nat.le_antisymm (Nat.le_trans low sound.within) (by omega)
    exact ⟨_, _, .finish (last ▸ place)⟩

theorem blocked_moves (s : State) (sound : Sound setup s) (i : Nat) (place : s.main = .blocked i) :
    ∃ event after, Step setup s event after := by
  have opened : s.main ≠ .finished := by simp [place]
  have low := sound.low
  have high := sound.high
  rw [place] at low high
  simp only [Main.page] at low high
  by_cases filled : i < s.fills.length
  · exact ⟨_, _, .wake place (by rw [sound.pages opened i, if_pos filled]; rfl)⟩
  · have last : s.fills.length = i := by omega
    have duty := sound.duty
    rw [place, if_pos (by rw [last]; rfl)] at duty
    cases there : s.handler with
    | broken => exact absurd (sound.working there) opened
    | looping => exact ⟨_, _, .calls there opened⟩
    | polling =>
        have pending : s.messages = [setup.base + s.fills.length * setup.pg] := by
          simpa only [State.duty, there] using duty
        exact ⟨_, _, .poll there (by rw [pending]; simp)⟩
    | readable =>
        have pending : s.messages = [setup.base + s.fills.length * setup.pg] := by
          simpa only [State.duty, there] using duty
        exact ⟨_, _, .receive there opened pending⟩
    | holding address => exact ⟨_, _, .copy there opened (sound_holding s sound address there).2⟩

theorem moves (s : State) (sound : Sound setup s) (unfinished : ¬ s.Ended) :
    ∃ event after, Step setup s event after := by
  cases place : s.main with
  | loop i => exact loop_moves s sound i place
  | blocked i => exact blocked_moves s sound i place
  | finished =>
      cases there : s.handler with
      | looping => exact ⟨_, _, .invalid there place⟩
      | readable => exact ⟨_, _, .fails there (.inr place)⟩
      | holding address => exact ⟨_, _, .taken there (.inr place)⟩
      | polling => exact absurd ⟨place, .inl there⟩ unfinished
      | broken => exact absurd ⟨place, .inr there⟩ unfinished

theorem run_progress (setup : Setup) :
    Progress (system setup) (fun _ => false) State.Ended (State.work setup) := by
  apply progress_busy
  · exact fun before event after run next => step_spends before after event (run_sound before run) next
  · exact fun s run unfinished => moves s (run_sound s run) unfinished

theorem ended_stuck (s : State) (sound : Sound setup s) (ended : s.Ended) (event : Event) (after : State) :
    ¬ Step setup s event after := by
  obtain ⟨finished, place⟩ := ended
  have quiet := sound_closed s sound finished
  intro next
  cases next with
  | read here | fault here | wake here | finish here =>
      rw [finished] at here
      contradiction
  | poll here event =>
      simp only [State.duty, here] at quiet
      exact event quiet
  | calls here | invalid here | receive here | fails here | copy here | taken here =>
      rcases place with place | place <;> rw [place] at here <;> contradiction

end Steps

/-- In every interleaving each page is filled once, in the order of the faults, and
`fault_thread` leaves its loop only after `main` has closed the descriptor. What `main`
reads is the magic byte; that the whole page holds it takes pages no larger than `fillbuf`. -/
theorem demand_filled (setup : Setup) (s : State) (run : Run setup s) :
    (∃ m, s.fills = List.range m ∧
      ∀ i, (s.main ≠ .finished → s.pages i = if i < m then some setup.fillbuf else none) ∧
        (s.main = .finished → s.pages i = none)) ∧
    (s.handler = .broken → s.main = .finished) ∧ (∃ i ≤ setup.n, s.got = List.replicate i magic) ∧
    (setup.k ≤ 16 → ∀ i page j, s.pages i = some page → j < setup.pg → page j = magic) := by
  have sound := run_sound s run
  refine ⟨⟨_, sound.fills, ?_⟩, sound.working, ⟨_, Nat.le_trans sound.low sound.within, sound.got⟩, ?_⟩
  · exact fun i => ⟨fun opened => sound.pages opened i, fun closed => sound.unmapped closed i⟩
  · intro fits i page j there inside
    by_cases closed : s.main = .finished
    · rw [sound.unmapped closed] at there
      contradiction
    · have short : j < bufSize := Nat.lt_of_lt_of_le inside (Nat.pow_le_pow_right (by decide) fits)
      rw [(sound_there s sound closed i page there).2]
      exact if_pos short

/-- No interleaving blocks or goes on forever, and where no step is left `main` has read
every page and `fault_thread` is in `poll` or has left its loop. -/
theorem demand_finishes (setup : Setup) (s : State) (run : Run setup s) :
    (∀ events after, Path (system setup) initial events after → events.length ≤ 7 * setup.n + 3) ∧
    ((∀ event after, ¬ Step setup s event after) →
      s.main = .finished ∧ (s.handler = .polling ∨ s.handler = .broken) ∧
      s.fills = List.range setup.n ∧ s.got = List.replicate setup.n magic) := by
  have progress := run_progress setup
  constructor
  · intro events after path
    have bounded := busy_bounded progress _ _ _ (.start rfl) path
    have begins : State.work setup initial = 6 * (setup.n - 0) + 0 + 2 + (setup.n - 0 + 1) := rfl
    omega
  · intro stuck
    have sound := run_sound s run
    obtain ⟨stopped, place⟩ := busy_stuck progress s run stuck
    have low := sound.low
    have got := sound.got
    rw [stopped] at low got
    have all : s.fills.length = setup.n := Nat.le_antisymm sound.within low
    exact ⟨stopped, place, by rw [sound.fills, all], got⟩

def fourPages : Setup := ⟨2 ^ 20, 4, 12, by decide, by decide, by decide, fun _ => 0⟩

theorem demand_filled_four : ∃ s, Run fourPages s ∧ s.fills = [0, 1, 2, 3] ∧
    (s.handler = .broken → s.main = .finished) := by
  obtain ⟨_, s, path, stopped, _⟩ := progress_finishes (run_progress fourPages) initial (.start rfl)
  have run := path_reachable _ _ _ _ (.start rfl) path
  obtain ⟨⟨m, fills, _⟩, working, _⟩ := demand_filled fourPages s run
  have low := (run_sound s run).low
  have within := (run_sound s run).within
  rw [stopped, fills, List.length_range] at low
  rw [fills, List.length_range] at within
  have all : m = 4 := Nat.le_antisymm within low
  exact ⟨s, run, by rw [fills, all]; rfl, working⟩

theorem demand_finishes_four : ∃ s, Run fourPages s ∧ s.got = [magic, magic, magic, magic] := by
  obtain ⟨_, s, path, ended⟩ := progress_finishes (run_progress fourPages) initial (.start rfl)
  have run := path_reachable _ _ _ _ (.start rfl) path
  have finished := (demand_finishes fourPages s run).2 (ended_stuck s (run_sound s run) ended)
  exact ⟨s, run, finished.2.2.2⟩

end LinuxMemory.Userfault
