import LinuxMemory.Transition

/-!
A supply that comes in units of one size and gains a unit only when all of it is
taken. Nothing is mapped ahead of need and nothing that was given back is
forgotten, so the number of units is the peak demand over the size, rounded up.
-/

namespace LinuxMemory.Capacity

open Transition

structure Level where
  units : Nat
  held : Nat
  peak : Nat

def Level.record (level : Level) (units held : Nat) : Level := ⟨units, held, max level.peak held⟩

inductive Move (size : Nat) : Level → Level → Prop where
  | take {level : Level} (room : level.held < level.units * size) :
      Move size level (level.record level.units (level.held + 1))
  | enlarge {level : Level} (full : level.held = level.units * size) :
      Move size level (level.record (level.units + 1) (level.held + 1))
  | drop {level : Level} : Move size level (level.record level.units (level.held - 1))
  | stay {level : Level} : Move size level (level.record level.units level.held)

def system (Event : Type) (size : Nat) : System Level Event :=
  ⟨fun level => level = ⟨0, 0, 0⟩, fun before _ after => Move size before after⟩

/-- The units cover the peak, and one unit fewer would not. -/
structure Exact (size : Nat) (level : Level) : Prop where
  within : level.held ≤ level.peak
  enough : level.peak ≤ level.units * size
  needed : level.units * size < level.peak + size

section Exact
variable {Event : Type} {size : Nat} {before after level : Level}

theorem exact_below (exact : Exact size before) (held : Nat) (below : held ≤ before.peak) :
    Exact size (before.record before.units held) := by
  have top : before.record before.units held = ⟨before.units, held, before.peak⟩ := by
    rw [Level.record, Nat.max_eq_left below]
  rw [top]
  exact ⟨below, exact.enough, exact.needed⟩

theorem exact_move (exact : Exact size before) (move : Move size before after) :
    Exact size after := by
  have within := exact.within
  have enough := exact.enough
  have needed := exact.needed
  cases move with
  | take room =>
      constructor
      · exact Nat.le_max_right _ _
      · exact Nat.max_le.mpr ⟨enough, room⟩
      · exact Nat.lt_of_lt_of_le needed (Nat.add_le_add_right (Nat.le_max_left _ _) _)
  | enlarge full =>
      -- the units were all taken, so the demand is at its peak
      have top : max before.peak (before.held + 1) = before.held + 1 := by omega
      have larger : (before.units + 1) * size = before.held + size := by rw [Nat.succ_mul, full]
      constructor
      · exact Nat.le_max_right _ _
      · simp only [Level.record, top, larger]
        omega
      · simp only [Level.record, top, larger]
        omega
  | drop => exact exact_below exact _ (by omega)
  | stay => exact exact_below exact _ within

theorem exact_units (positive : 0 < size) (exact : Exact size level) :
    level.units = (level.peak + size - 1) / size := by
  obtain ⟨-, enough, needed⟩ := exact
  symm
  apply Nat.div_eq_of_lt_le
  · omega
  · rw [Nat.succ_mul]
    omega

theorem units_exact (positive : 0 < size) (run : Reachable (system Event size) level) :
    level.units = (level.peak + size - 1) / size := by
  apply exact_units positive
  refine reachable_invariant (system Event size) (Exact size) ?_ ?_ level run
  · rintro first rfl
    exact ⟨Nat.le_refl _, Nat.zero_le _, by simpa using positive⟩
  · intro before _ after exact move
    exact exact_move exact move

end Exact

end LinuxMemory.Capacity
