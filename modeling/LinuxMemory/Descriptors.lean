import Mathlib.Data.List.Basic

/-!
Tables of file descriptors. A table maps numbers to open objects, an object is open
as long as some descriptor refers to it, and a new descriptor gets the lowest free
number.
-/

namespace LinuxMemory.Descriptors

variable {Object : Type}

abbrev Table (Object : Type) := List (Option Object)

def lookup (table : Table Object) (fd : Nat) : Option Object := table.getD fd none

def install (object : Object) : Table Object → Nat × Table Object
  | [] => (0, [some object])
  | none :: rest => (0, some object :: rest)
  | some other :: rest => ((install object rest).1 + 1, some other :: (install object rest).2)

def close (fd : Nat) (table : Table Object) : Table Object := table.set fd none

/-- The entries up to `fd` exist afterwards. -/
def put (object : Object) : Nat → Table Object → Table Object
  | 0, [] => [some object]
  | 0, _ :: rest => some object :: rest
  | fd + 1, [] => none :: put object fd []
  | fd + 1, entry :: rest => entry :: put object fd rest

/-- `dup2`, which does nothing for an `old` that is not open. -/
def dup2 (old new : Nat) (table : Table Object) : Table Object :=
  match lookup table old with
  | none => table
  | some object => put object new table

def references [DecidableEq Object] (object : Object) (table : Table Object) : Nat :=
  table.count (some object)

@[simp] theorem lookup_nil (fd : Nat) : lookup ([] : Table Object) fd = none := rfl

@[simp] theorem lookup_cons_zero (entry : Option Object) (rest : Table Object) :
    lookup (entry :: rest) 0 = entry := rfl

@[simp] theorem lookup_cons_succ (entry : Option Object) (rest : Table Object) (fd : Nat) :
    lookup (entry :: rest) (fd + 1) = lookup rest fd := rfl

theorem lookup_install (object : Object) (table : Table Object) (fd : Nat) :
    lookup (install object table).2 fd =
      if fd = (install object table).1 then some object else lookup table fd := by
  induction table generalizing fd with
  | nil => cases fd <;> simp [install]
  | cons entry rest ih =>
      cases entry with
      | none => cases fd <;> simp [install]
      | some other =>
          cases fd with
          | zero => simp [install]
          | succ fd => simp [install, ih]

theorem install_free (object : Object) (table : Table Object) :
    lookup table (install object table).1 = none := by
  induction table with
  | nil => rfl
  | cons entry rest ih =>
      cases entry with
      | none => rfl
      | some other => simpa [install] using ih

theorem install_fresh (object other : Object) (table : Table Object) (fd : Nat)
    (there : lookup table fd = some other) : fd ≠ (install object table).1 := by
  rintro rfl
  rw [install_free] at there
  contradiction

theorem install_le (object : Object) (table : Table Object) :
    (install object table).1 ≤ table.length ∧ (install object table).2.length ≤ table.length + 1 := by
  induction table with
  | nil => simp [install]
  | cons entry rest ih =>
      cases entry with
      | none => simp [install]
      | some other =>
          simp only [install, List.length_cons]
          omega

theorem lookup_close (fd other : Nat) (table : Table Object) :
    lookup (close fd table) other = if other = fd then none else lookup table other := by
  unfold lookup close
  rw [List.getD_eq_getElem?_getD, List.getD_eq_getElem?_getD, List.getElem?_set]
  by_cases same : fd = other
  · subst same
    simp only [↓reduceIte]
    split <;> simp
  · rw [if_neg same, if_neg (Ne.symm same)]

theorem lookup_put (object : Object) (fd other : Nat) (table : Table Object) :
    lookup (put object fd table) other = if other = fd then some object else lookup table other := by
  induction fd generalizing other table with
  | zero => cases table <;> cases other <;> simp [put]
  | succ fd ih =>
      cases table with
      | nil => cases other <;> simp [put, ih]
      | cons entry rest => cases other <;> simp [put, ih]

theorem lookup_dup2 (old new other : Nat) (table : Table Object) (object : Object)
    (there : lookup table old = some object) :
    lookup (dup2 old new table) other = if other = new then some object else lookup table other := by
  unfold dup2
  rw [there]
  exact lookup_put object new other table

section References
variable [DecidableEq Object]

theorem references_install (object other : Object) (table : Table Object) :
    references other (install object table).2 =
      references other table + if object = other then 1 else 0 := by
  unfold references
  induction table with
  | nil => simp [install, List.count_cons]
  | cons entry rest ih =>
      cases entry with
      | none => simp [install, List.count_cons]
      | some kept =>
          simp only [install, List.count_cons, ih]
          omega

theorem references_close (fd : Nat) (table : Table Object) (object other : Object)
    (there : lookup table fd = some object) :
    references other (close fd table) + (if object = other then 1 else 0) = references other table := by
  unfold references
  induction table generalizing fd with
  | nil => simp at there
  | cons entry rest ih =>
      cases fd with
      | zero =>
          rw [lookup_cons_zero] at there
          simp [close, there, List.count_cons]
      | succ fd =>
          have tail := ih fd (by simpa using there)
          unfold close at tail ⊢
          simp only [List.set_cons_succ, List.count_cons]
          omega

theorem references_pos (fd : Nat) (table : Table Object) (object : Object)
    (there : lookup table fd = some object) : 0 < references object table := by
  have struck := references_close fd table object object there
  simp only [↓reduceIte] at struck
  omega

end References

end LinuxMemory.Descriptors
