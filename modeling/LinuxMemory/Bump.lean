import LinuxMemory.Word
import LinuxMemory.Ownership
import LinuxMemory.Transition

/-!
The arena of `14_putting_it_together/01_bump.c`. An arena that only moves its
bump pointer forward keeps every range it returned apart from the others. Both
additions of `arena_alloc` wrap at `2 ^ 64`, and a request for which one of them
does moves the pointer back or leaves it where it was.
-/

namespace LinuxMemory.Bump

open ByteMemory Ownership Transition

def align : Nat := 16

def alignUp (x : Nat) : Nat := Word.roundUp align x

structure Arena where
  base : Nat
  bump : Nat
  fin : Nat

/-- `arena_init` on what `mmap` returned, `none` for `MAP_FAILED`. -/
def arenaInit (mapped : Option Nat) (cap : Nat) : Option Arena :=
  mapped.map fun base => ⟨base, base, Word.add base cap⟩

def arenaAlloc (a : Arena) (sz : Nat) : Arena × Nat :=
  let sz := alignUp sz
  if Word.add a.bump sz > a.fin then (a, 0)
  else ({ a with bump := Word.add a.bump sz }, a.bump)

def arenaReset (a : Arena) : Arena := { a with bump := a.base }

/-! A run: the arena, and the ranges it returned since the last reset. -/

structure Client where
  arena : Arena
  ranges : List Block

inductive Event where
  | alloc (sz p : Nat)
  | reset

inductive Step : Client → Event → Client → Prop where
  | alloc {c : Client} {sz p : Nat} {arena : Arena} (size : sz < 2 ^ 64)
      (returned : arenaAlloc c.arena sz = (arena, p)) :
      Step c (.alloc sz p) ⟨arena, if p = 0 then c.ranges else (p, sz) :: c.ranges⟩
  | reset {c : Client} : Step c .reset ⟨arenaReset c.arena, []⟩

def Started (cap mapped : Nat) (c : Client) : Prop :=
  Region mapped cap ∧ arenaInit (some mapped) cap = some c.arena ∧ c.ranges = []

def system (cap mapped : Nat) : System Client Event := ⟨Started cap mapped, Step⟩

abbrev Run (cap mapped : Nat) : Client → Prop := Reachable (system cap mapped)

/-! What the arena promises, of its state and of one call. -/

def rounded (sz : Nat) : Nat := (sz + 15) / 16 * 16

def Arena.extent (a : Arena) : Block := (a.base, a.fin - a.base)

/-- 16-aligned relative to the base and inside the arena. -/
def Placed (a : Arena) (range : Block) : Prop :=
  (range.1 - a.base) % 16 = 0 ∧ Within range a.extent

structure Safe (c : Client) : Prop where
  page : c.arena.base % 4096 = 0
  low : c.arena.base ≤ c.arena.bump
  high : c.arena.bump ≤ c.arena.fin
  placed : ∀ range ∈ c.ranges, Placed c.arena range
  disjoint : c.ranges.Pairwise Separate

structure Answered (a : Arena) (sz : Nat) (result : Arena × Nat) : Prop where
  refused : result.2 = 0 ↔ a.fin - a.bump < rounded sz
  unchanged : result.2 = 0 → result.1 = a
  placed : result.2 ≠ 0 → Placed a (result.2, sz)

def Exact (c : Client) : Event → Prop
  | .alloc sz _ => c.arena.bump + rounded sz < 2 ^ 64
  | .reset => True

theorem alignUp_eq (x : Nat) : alignUp x = Word.add x 15 / 16 * 16 :=
  Word.roundUp_eq 4 x (by decide)

theorem alignUp_exact (sz : Nat) (room : rounded sz < 2 ^ 64) : alignUp sz = rounded sz := by
  unfold rounded at *
  rw [alignUp_eq, Word.add_exact sz 15 (by omega)]

theorem alignUp_wrapped (sz : Nat) (size : sz < 2 ^ 64) (beyond : 2 ^ 64 ≤ rounded sz) :
    alignUp sz = 0 := by
  unfold rounded at beyond
  rw [alignUp_eq]
  unfold Word.add
  omega

structure Sound (a : Arena) : Prop where
  page : a.base % 4096 = 0
  valid : 0 < a.base
  low : a.base ≤ a.bump
  high : a.bump ≤ a.fin
  aligned : (a.bump - a.base) % 16 = 0
  below : a.fin < 2 ^ 64

section Alloc
variable {a : Arena} {sz : Nat}

theorem arenaAlloc_exact (high : a.bump ≤ a.fin) (room : a.bump + rounded sz < 2 ^ 64) :
    arenaAlloc a sz =
      if a.fin - a.bump < rounded sz then (a, 0)
      else ({ a with bump := a.bump + rounded sz }, a.bump) := by
  have size : alignUp sz = rounded sz := alignUp_exact sz (by omega)
  have sum : Word.add a.bump (rounded sz) = a.bump + rounded sz := Word.add_exact _ _ room
  -- the test of the source is on the sum, the promise on the room left
  have test : a.bump + rounded sz > a.fin ↔ a.fin - a.bump < rounded sz := by omega
  simp only [arenaAlloc, size, sum, test]

/-- Where an addition wraps, the call succeeds and does not move the pointer
forward, however little room is left. -/
theorem arenaAlloc_wrapped (sound : Sound a) (size : sz < 2 ^ 64)
    (beyond : 2 ^ 64 ≤ a.bump + rounded sz) :
    (arenaAlloc a sz).2 = a.bump ∧ (arenaAlloc a sz).1.bump ≤ a.bump := by
  have high := sound.high
  have below := sound.below
  have sum : Word.add a.bump (alignUp sz) ≤ a.bump := by
    by_cases whole : rounded sz < 2 ^ 64
    · rw [alignUp_exact sz whole]
      unfold Word.add
      omega
    · rw [alignUp_wrapped sz size (by omega)]
      unfold Word.add
      omega
  unfold arenaAlloc
  simp only
  rw [if_neg (by omega)]
  exact ⟨rfl, sum⟩

theorem answered_exact (sound : Sound a) (room : a.bump + rounded sz < 2 ^ 64) :
    Answered a sz (arenaAlloc a sz) := by
  obtain ⟨page, valid, low, high, aligned, below⟩ := sound
  rw [arenaAlloc_exact high room]
  by_cases full : a.fin - a.bump < rounded sz
  · rw [if_pos full]
    exact ⟨iff_of_true rfl full, fun _ => rfl, fun valid => absurd rfl valid⟩
  · rw [if_neg full]
    have notNull : a.bump ≠ 0 := by omega
    refine ⟨iff_of_false notNull full, fun null => absurd null notNull, fun _ => ⟨aligned, low, ?_⟩⟩
    unfold rounded at full
    simp only [Arena.extent]
    omega

/-- A call answers as promised exactly if neither of its additions wraps. -/
theorem answered_iff (sound : Sound a) (size : sz < 2 ^ 64) :
    Answered a sz (arenaAlloc a sz) ↔ a.bump + rounded sz < 2 ^ 64 := by
  constructor
  · intro answered
    by_contra beyond
    -- a wrapped call succeeds although the request does not fit
    have wrapped := arenaAlloc_wrapped sound size (Nat.le_of_not_lt beyond)
    obtain ⟨page, valid, low, high, aligned, below⟩ := sound
    have full : a.fin - a.bump < rounded sz := by omega
    have null := answered.refused.mpr full
    omega
  · exact answered_exact sound

theorem sound_arenaAlloc (sound : Sound a) (room : a.bump + rounded sz < 2 ^ 64) :
    Sound (arenaAlloc a sz).1 := by
  obtain ⟨page, valid, low, high, aligned, below⟩ := sound
  rw [arenaAlloc_exact high room]
  by_cases full : a.fin - a.bump < rounded sz
  · rw [if_pos full]
    exact ⟨page, valid, low, high, aligned, below⟩
  · rw [if_neg full]
    have moved : a.bump ≤ a.bump + rounded sz ∧ a.bump + rounded sz ≤ a.fin := by omega
    refine ⟨page, valid, Nat.le_trans low moved.1, moved.2, ?_, below⟩
    show (a.bump + rounded sz - a.base) % 16 = 0
    unfold rounded
    omega

end Alloc

/-- The ranges returned since the last reset lie below the bump pointer. -/
structure Invariant (c : Client) : Prop where
  sound : Sound c.arena
  placed : ∀ range ∈ c.ranges, Placed c.arena range
  behind : ∀ range ∈ c.ranges, range.1 + range.2 ≤ c.arena.bump
  disjoint : c.ranges.Pairwise Separate

theorem invariant_started (cap mapped : Nat) (c : Client) (started : Started cap mapped c) :
    Invariant c := by
  obtain ⟨⟨aligned, valid, nonempty, below⟩, init, none⟩ := started
  have shape : c.arena = ⟨mapped, mapped, Word.add mapped cap⟩ := (Option.some.inj init).symm
  rw [Word.add_exact mapped cap below] at shape
  have sound : Sound c.arena := by
    rw [shape]
    exact ⟨aligned, valid, Nat.le_refl _, Nat.le_add_right _ _, by simp, below⟩
  exact ⟨sound, by simp [none], by simp [none], by simp [none]⟩

theorem invariant_alloc (c : Client) (sz p : Nat) (arena : Arena) (invariant : Invariant c)
    (room : c.arena.bump + rounded sz < 2 ^ 64) (returned : arenaAlloc c.arena sz = (arena, p)) :
    Invariant ⟨arena, if p = 0 then c.ranges else (p, sz) :: c.ranges⟩ := by
  obtain ⟨sound, placed, behind, disjoint⟩ := invariant
  have answered := answered_exact sound room
  have sound' := sound_arenaAlloc sound room
  have call := arenaAlloc_exact sound.high room
  rw [returned] at answered sound' call
  by_cases full : c.arena.fin - c.arena.bump < rounded sz
  · rw [if_pos full] at call
    obtain ⟨rfl, rfl⟩ := Prod.mk.inj call
    exact ⟨sound, placed, behind, disjoint⟩
  · rw [if_neg full] at call
    obtain ⟨rfl, rfl⟩ := Prod.mk.inj call
    have notNull : c.arena.bump ≠ 0 := fun null => full (answered.refused.mp null)
    have fits : sz ≤ rounded sz := by unfold rounded; omega
    simp only [if_neg notNull]
    constructor
    · exact sound'
    · intro range member
      rcases List.mem_cons.mp member with rfl | older
      · exact answered.placed notNull
      · exact placed range older
    · intro range member
      show range.1 + range.2 ≤ c.arena.bump + rounded sz
      rcases List.mem_cons.mp member with rfl | older
      · exact Nat.add_le_add_left fits _
      · exact Nat.le_trans (behind range older) (Nat.le_add_right _ _)
    · exact List.pairwise_cons.mpr ⟨fun range older => Or.inr (behind range older), disjoint⟩

theorem invariant_reset (c : Client) (invariant : Invariant c) :
    Invariant ⟨arenaReset c.arena, []⟩ := by
  obtain ⟨page, valid, low, high, aligned, below⟩ := invariant.sound
  refine ⟨⟨page, valid, Nat.le_refl _, Nat.le_trans low high, ?_, below⟩, by simp, by simp, by simp⟩
  simp [arenaReset]

theorem run_invariant (cap mapped : Nat) (c : Client)
    (run : Reachable ((system cap mapped).guarded Exact) c) : Invariant c := by
  apply reachable_invariant _ Invariant (invariant_started cap mapped) _ c run
  rintro before event after invariant ⟨exact, next⟩
  cases next with
  | alloc _ returned => exact invariant_alloc before _ _ _ invariant exact returned
  | reset => exact invariant_reset before invariant

/-- In a run whose calls wrap nowhere every state is safe, and the next call
answers as promised exactly if it does not wrap either. -/
theorem arena_safe_unwrapped (cap mapped : Nat) (c : Client)
    (run : Reachable ((system cap mapped).guarded Exact) c) :
    Safe c ∧ ∀ sz < 2 ^ 64, ∀ p,
      (Answered c.arena sz (arenaAlloc c.arena sz) ↔ Exact c (.alloc sz p)) := by
  obtain ⟨sound, placed, behind, disjoint⟩ := run_invariant cap mapped c run
  refine ⟨⟨sound.page, sound.low, sound.high, placed, disjoint⟩, fun sz size p => ?_⟩
  exact answered_iff sound size

theorem page_region : Region 0x7f0000000000 4096 := ⟨by decide, by decide, by decide, by decide⟩

theorem arena_safe_unwrapped_greeting :
    ∃ c : Client, c.ranges = [(0x7f0000000000, 13)] ∧ Safe c ∧ ∀ sz < 2 ^ 64, ∀ p,
      (Answered c.arena sz (arenaAlloc c.arena sz) ↔ Exact c (.alloc sz p)) := by
  have start : Started 4096 0x7f0000000000
      ⟨⟨0x7f0000000000, 0x7f0000000000, 0x7f0000001000⟩, []⟩ := ⟨page_region, rfl, rfl⟩
  have call : arenaAlloc ⟨0x7f0000000000, 0x7f0000000000, 0x7f0000001000⟩ 13 =
      (⟨0x7f0000000000, 0x7f0000000010, 0x7f0000001000⟩, 0x7f0000000000) := by
    rw [arenaAlloc_exact (by decide) (by decide)]
    rfl
  have exact : Exact ⟨⟨0x7f0000000000, 0x7f0000000000, 0x7f0000001000⟩, []⟩
      (.alloc 13 0x7f0000000000) := by
    show 0x7f0000000000 + rounded 13 < 2 ^ 64
    decide
  exact ⟨_, rfl, arena_safe_unwrapped 4096 0x7f0000000000 _
    (.step (.start start) ⟨exact, .alloc (by decide) call⟩)⟩

/-- `arena_alloc(SIZE_MAX - 15)` moves the bump pointer below the base. -/
theorem arena_bump_below_base :
    ∃ c : Client, Run 4096 0x7f0000000000 c ∧ c.arena.bump < c.arena.base := by
  have start : Started 4096 0x7f0000000000
      ⟨⟨0x7f0000000000, 0x7f0000000000, 0x7f0000001000⟩, []⟩ := ⟨page_region, rfl, rfl⟩
  have call : arenaAlloc ⟨0x7f0000000000, 0x7f0000000000, 0x7f0000001000⟩ (2 ^ 64 - 16) =
      (⟨0x7f0000000000, 0x7efffffffff0, 0x7f0000001000⟩, 0x7f0000000000) := by
    unfold arenaAlloc
    simp only [alignUp_eq]
    rfl
  exact ⟨_, .step (.start start) (.alloc (by decide) call), by decide⟩

end LinuxMemory.Bump
