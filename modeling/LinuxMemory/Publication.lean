import Mathlib.Data.List.Basic
import LinuxMemory.Transition

/-!
A message handed over in shared memory, as in `10_ipc_memory/04_shm_open.c` and
`05_sysv_shm.c` from the return of `fork` on. The parent copies the message into
`msg`, one byte a step, and then sets `ready`; the child waits in a loop for
`ready` and prints `msg` up to the first null byte. Standard output is a terminal: the
line is written at its end, before the `_exit` of the child, which loses what is buffered.
-/

namespace LinuxMemory.Publication

open Transition

def size : Nat := 64

def nul : Char := '\x00'

inductive Parent where
  -- in `strncpy`, with byte `i` next, and with `i = size` before `atomic_store`
  | copying (i : Nat)
  | waiting
  | done

inductive Child where
  | spinning
  -- in `printf`, with byte `i` next
  | printing (i : Nat)
  | exited
  -- it has read behind the end of `msg`
  | overran

structure State where
  ready : Bool
  msg : Nat → Char
  parent : Parent
  child : Child
  output : List Char

inductive Event where
  | copy
  | store
  | wait
  | spin
  | see
  | print
  | stop
  | overrun

def strncpyByte (source : List Char) (i : Nat) : Char := source.getD i nul

inductive Step (source : List Char) : State → Event → State → Prop where
  | copy {s : State} {i : Nat} (here : s.parent = .copying i) (more : i < size) :
      Step source s .copy
        { s with msg := fun j => if j = i then strncpyByte source i else s.msg j,
                 parent := .copying (i + 1) }
  | store {s : State} (here : s.parent = .copying size) :
      Step source s .store { s with ready := true, parent := .waiting }
  | wait {s : State} (here : s.parent = .waiting) (gone : s.child = .exited) :
      Step source s .wait { s with parent := .done }
  | spin {s : State} (here : s.child = .spinning) (unset : s.ready = false) : Step source s .spin s
  | see {s : State} (here : s.child = .spinning) (set : s.ready = true) :
      Step source s .see { s with child := .printing 0 }
  | print {s : State} {i : Nat} (here : s.child = .printing i) (inside : i < size)
      (more : s.msg i ≠ nul) :
      Step source s .print { s with child := .printing (i + 1), output := s.output ++ [s.msg i] }
  | stop {s : State} {i : Nat} (here : s.child = .printing i) (inside : i < size)
      (last : s.msg i = nul) : Step source s .stop { s with child := .exited }
  | overrun {s : State} {i : Nat} (here : s.child = .printing i) (outside : size ≤ i) :
      Step source s .overrun { s with child := .overran }

/-- The object is zero-filled, and `ready` is set to 0 before `fork`. -/
def initial : State := ⟨false, fun _ => nul, .copying 0, .spinning, []⟩

def system (source : List Char) : System State Event := ⟨(· = initial), Step source⟩

abbrev Run (source : List Char) : State → Prop := Reachable (system source)

def shmText : List Char := "hello via shm_open".toList

def sysvText : List Char := "hello SysV shm".toList

def idle : Event → Bool
  | .spin => true
  | _ => false

def State.Finished (s : State) : Prop := s.parent = .done ∧ s.child = .exited

/-- What has to hold when the message changes hands: nobody reads `msg` while it is
written, and what is printed is the message, byte for byte. -/
structure Published (source : List Char) (s : State) : Prop where
  quiet : ∀ i j, s.parent = .copying i → s.child ≠ .printing j
  inside : s.child ≠ .overran
  started : ∃ rest, s.output ++ rest = source
  whole : s.child = .exited → s.output = source

/-- What every step keeps. The bytes belong to the parent until `ready` is set, and
to nobody but the child from then on. -/
structure Sound (source : List Char) (s : State) : Prop where
  copied : ∀ i, s.parent = .copying i →
    i ≤ size ∧ s.ready = false ∧ s.child = .spinning ∧ ∀ j < i, s.msg j = strncpyByte source j
  stored : (∀ i, s.parent ≠ .copying i) → s.ready = true ∧ ∀ j < size, s.msg j = strncpyByte source j
  silent : s.child = .spinning → s.output = []
  printed : ∀ i, s.child = .printing i → i ≤ size ∧ i ≤ source.length ∧ s.output = source.take i
  exited : s.child = .exited → source.length < size ∧ s.output = source
  overran : s.child = .overran → size ≤ source.length ∧ s.output = source.take size
  reaped : s.parent = .done → s.child = .exited

def State.work (s : State) : Nat :=
  (match s.parent with
    | .copying i => size - i + 2
    | .waiting => 1
    | .done => 0) +
  match s.child with
    | .spinning => size + 3
    | .printing i => size - i + 2
    | .exited | .overran => 0

section Steps
variable {source : List Char}

theorem strncpyByte_inside (i : Nat) (inside : i < source.length) :
    strncpyByte source i = source[i] := by
  unfold strncpyByte
  rw [List.getD_eq_getElem?_getD, List.getElem?_eq_getElem inside, Option.getD_some]

theorem strncpyByte_outside (i : Nat) (outside : source.length ≤ i) : strncpyByte source i = nul := by
  unfold strncpyByte
  rw [List.getD_eq_getElem?_getD, List.getElem?_eq_none outside, Option.getD_none]

theorem strncpyByte_nul (string : nul ∉ source) (i : Nat) :
    strncpyByte source i = nul ↔ source.length ≤ i := by
  constructor
  · intro last
    by_contra inside
    rw [strncpyByte_inside i (by omega)] at last
    exact string (last ▸ List.getElem_mem _)
  · exact strncpyByte_outside i

theorem sound_step (string : nul ∉ source) (before after : State) (event : Event)
    (sound : Sound source before) (next : Step source before event after) : Sound source after := by
  obtain ⟨copied, stored, silent, printed, exited, overran, reaped⟩ := sound
  -- a child that has seen `ready` reads what the parent has stored
  have held : ∀ i, before.child = .printing i → before.ready = true ∧
      ∀ j < size, before.msg j = strncpyByte source j := by
    intro i here
    apply stored
    intro k copying
    rw [(copied k copying).2.2.1] at here
    contradiction
  cases next with
  | @copy i here more =>
      obtain ⟨_, unset, spinning, bytes⟩ := copied i here
      refine ⟨?_, ?_, silent, printed, exited, overran, by simp⟩
      · rintro k same
        cases same
        refine ⟨more, unset, spinning, ?_⟩
        intro j less
        show (if j = i then _ else _) = _
        split
        · rename_i equal
          rw [equal]
        · exact bytes j (by omega)
      · intro none
        exact absurd rfl (none (i + 1))
  | store here =>
      obtain ⟨_, _, _, bytes⟩ := copied size here
      exact ⟨by simp, fun _ => ⟨rfl, bytes⟩, silent, printed, exited, overran, by simp⟩
  | wait here gone =>
      have kept := stored (by simp [here])
      exact ⟨by simp, fun _ => kept, silent, printed, exited, overran, fun _ => gone⟩
  | spin => exact ⟨copied, stored, silent, printed, exited, overran, reaped⟩
  | see here set =>
      refine ⟨?_, stored, by simp, ?_, by simp, by simp, ?_⟩
      · intro k copying
        rw [(copied k copying).2.1] at set
        contradiction
      · rintro k same
        cases same
        exact ⟨Nat.zero_le _, Nat.zero_le _, silent here⟩
      · intro done
        rw [reaped done] at here
        contradiction
  | @print i here inside more =>
      obtain ⟨_, within, text⟩ := printed i here
      obtain ⟨_, bytes⟩ := held i here
      rw [bytes i inside] at more
      have shorter : i < source.length := by
        by_contra outside
        exact more (strncpyByte_outside i (by omega))
      refine ⟨?_, stored, by simp, ?_, by simp, by simp, ?_⟩
      · intro k copying
        rw [(copied k copying).2.2.1] at here
        contradiction
      · rintro k same
        cases same
        refine ⟨inside, shorter, ?_⟩
        show before.output ++ [before.msg i] = _
        rw [text, bytes i inside, strncpyByte_inside i shorter, List.take_append_getElem shorter]
      · intro done
        rw [reaped done] at here
        contradiction
  | @stop i here inside last =>
      obtain ⟨_, within, text⟩ := printed i here
      obtain ⟨_, bytes⟩ := held i here
      rw [bytes i inside, strncpyByte_nul string] at last
      refine ⟨?_, stored, by simp, by simp, ?_, by simp, fun _ => rfl⟩
      · intro k copying
        rw [(copied k copying).2.2.1] at here
        contradiction
      · exact fun _ => ⟨Nat.lt_of_le_of_lt last inside, by rw [text, List.take_of_length_le last]⟩
  | @overrun i here outside =>
      obtain ⟨within, long, text⟩ := printed i here
      have edge : i = size := Nat.le_antisymm within outside
      subst edge
      refine ⟨?_, stored, by simp, by simp, by simp, fun _ => ⟨long, text⟩, ?_⟩
      · intro k copying
        rw [(copied k copying).2.2.1] at here
        contradiction
      · intro done
        rw [reaped done] at here
        contradiction

theorem run_sound (string : nul ∉ source) (s : State) (run : Run source s) : Sound source s := by
  apply reachable_invariant (system source) (Sound source) _ _ s run
  · rintro first rfl
    refine ⟨?_, ?_, fun _ => rfl, by simp [initial], by simp [initial], by simp [initial],
      by simp [initial]⟩
    · rintro i same
      cases same
      exact ⟨Nat.zero_le _, rfl, rfl, by simp⟩
    · intro none
      exact absurd rfl (none 0)
  · exact fun before event after => sound_step string before after event

theorem sound_published (s : State) (sound : Sound source s) (short : source.length < size) :
    Published source s := by
  refine ⟨?_, ?_, ?_, fun stopped => (sound.exited stopped).2⟩
  · intro i j copying
    rw [(sound.copied i copying).2.2.1]
    simp
  · intro stopped
    have long := (sound.overran stopped).1
    omega
  · cases place : s.child with
    | spinning => exact ⟨source, by rw [sound.silent place]; rfl⟩
    | printing i => exact ⟨source.drop i, by rw [(sound.printed i place).2.2, List.take_append_drop]⟩
    | exited => exact ⟨[], by rw [(sound.exited place).2, List.append_nil]⟩
    | overran => exact ⟨source.drop size, by rw [(sound.overran place).2, List.take_append_drop]⟩

theorem step_spends (before after : State) (event : Event) (next : Step source before event after)
    (active : idle event = false) : after.work < before.work := by
  unfold State.work
  cases next with
  | copy here more | print here more =>
      simp only [here]
      omega
  | store here | wait here | see here | stop here | overrun here =>
      simp only [here]
      omega
  | spin here unset => simp [idle] at active

theorem moves (s : State) (sound : Sound source s) (unfinished : ¬ (s.Finished ∨ s.child = .overran)) :
    ∃ event after, idle event = false ∧ Step source s event after := by
  cases place : s.parent with
  | copying i =>
      by_cases more : i < size
      · exact ⟨_, _, rfl, .copy place more⟩
      · have edge : i = size := Nat.le_antisymm (sound.copied i place).1 (by omega)
        exact ⟨_, _, rfl, .store (edge ▸ place)⟩
  | done => exact absurd (.inl ⟨place, sound.reaped place⟩) unfinished
  | waiting =>
      cases there : s.child with
      | spinning => exact ⟨_, _, rfl, .see there (sound.stored (by simp [place])).1⟩
      | exited => exact ⟨_, _, rfl, .wait place there⟩
      | overran => exact absurd (.inr there) unfinished
      | printing i =>
          by_cases inside : i < size
          · by_cases last : s.msg i = nul
            · exact ⟨_, _, rfl, .stop there inside last⟩
            · exact ⟨_, _, rfl, .print there inside last⟩
          · exact ⟨_, _, rfl, .overrun there (by omega)⟩

theorem run_progress (string : nul ∉ source) :
    Progress (system source) idle (fun s => s.Finished ∨ s.child = .overran) State.work where
  spends := fun before event after _ next active => step_spends before after event next active
  waits := by
    intro before event after next idles
    cases next with
    | spin => rfl
    | _ => simp [idle] at idles
  moves := fun s run unfinished => moves s (run_sound string s run) unfinished

end Steps

/-- Every interleaving passes the message on untorn, exactly if it leaves room for
the null byte: `strncpy` does not write one otherwise. -/
theorem published_iff (source : List Char) (string : nul ∉ source) :
    (∀ s, Run source s → Published source s) ↔ source.length < size := by
  constructor
  · intro published
    by_contra long
    obtain ⟨_, s, path, ended⟩ := progress_finishes (run_progress string) initial (.start rfl)
    have run := path_reachable _ _ _ _ (.start rfl) path
    rcases ended with ⟨_, gone⟩ | stopped
    · exact long ((run_sound string s run).exited gone).1
    · exact (published s run).inside stopped
  · exact fun short s run => sound_published s (run_sound string s run) short

theorem published_iff_shm : (∀ s, Run shmText s → Published shmText s) ↔ shmText.length < size :=
  published_iff shmText (by decide)

/-- Apart from the turns of the waiting loop a run has a bounded number of steps, and
where only such turns are left the child has printed the message and is reaped. -/
theorem publication_finishes (source : List Char) (string : nul ∉ source) (short : source.length < size)
    (s : State) (run : Run source s) :
    (∀ events after, Path (system source) initial events after →
      (events.filter (fun event => !idle event)).length ≤ 2 * size + 5) ∧
    ((∀ event after, Step source s event after → idle event = true) →
      s.Finished ∧ s.output = source) := by
  have progress := run_progress string
  constructor
  · intro events after path
    have bounded := progress_bounded progress _ _ _ (.start rfl) path
    have begins : initial.work = 2 * size + 5 := rfl
    omega
  · intro stuck
    have sound := run_sound string s run
    rcases progress_stuck progress s run stuck with finished | stopped
    · exact ⟨finished, (sound.exited finished.2).2⟩
    · have long := (sound.overran stopped).1
      omega

theorem publication_finishes_sysv : ∃ s, Run sysvText s ∧ s.Finished ∧ s.output = sysvText := by
  have string : nul ∉ sysvText := by decide
  have short : sysvText.length < size := by decide
  obtain ⟨_, s, path, ended⟩ := progress_finishes (run_progress string) initial (.start rfl)
  have run := path_reachable _ _ _ _ (.start rfl) path
  rcases ended with ⟨done, gone⟩ | stopped
  · have idles : ∀ event after, Step sysvText s event after → idle event = true := by
      intro event after next
      by_contra active
      have less := step_spends s after event next (by simpa using active)
      simp [State.work, done, gone] at less
    exact ⟨s, run, (publication_finishes sysvText string short s run).2 idles⟩
  · exact absurd stopped (sound_published s (run_sound string s run) short).inside

end LinuxMemory.Publication
