import Mathlib.Logic.Function.Basic

/-!
Mappings of shared objects, such as files, into the memory of processes. A shared mapping
is the object itself; a private one copies a page of it at the first write to the page.
A process that is forked off starts with its parent's mappings as they are.
-/

namespace LinuxMemory.Mappings

variable {Object Value : Type}

abbrev Objects (Object Value : Type) := Object → Nat → Value

inductive Mapping (Object Value : Type) where
  | mapShared (object : Object)
  | mapPrivate (object : Object) (copies : Nat → Option (Nat → Value))

section Accesses
variable (page : Nat → Nat)

def Mapping.read (objects : Objects Object Value) : Mapping Object Value → Nat → Value
  | .mapShared object, i => objects object i
  | .mapPrivate object copies, i => ((copies (page i)).getD (objects object)) i

def Mapping.write [DecidableEq Object] (objects : Objects Object Value) (i : Nat) (v : Value) :
    Mapping Object Value → Objects Object Value × Mapping Object Value
  | .mapShared object =>
      (Function.update objects object (Function.update (objects object) i v), .mapShared object)
  | .mapPrivate object copies =>
      let content := Function.update ((copies (page i)).getD (objects object)) i v
      (objects, .mapPrivate object (Function.update copies (page i) (some content)))

def Mapping.writeAll [DecidableEq Object] (objects : Objects Object Value)
    (mapping : Mapping Object Value) : List (Nat × Value) → Objects Object Value × Mapping Object Value
  | [] => (objects, mapping)
  | (i, v) :: rest =>
      (mapping.write page objects i v).2.writeAll (mapping.write page objects i v).1 rest

end Accesses

def updateAll (cells : Nat → Value) (stores : List (Nat × Value)) : Nat → Value :=
  stores.foldl (fun cells store => Function.update cells store.1 store.2) cells

section Laws
variable {page : Nat → Nat} {objects : Objects Object Value}

theorem private_read (object : Object) (copies : Nat → Option (Nat → Value)) (i : Nat)
    (others : Objects Object Value) (own : (copies (page i)).isSome) :
    (Mapping.mapPrivate object copies).read page others i =
      (Mapping.mapPrivate object copies).read page objects i := by
  obtain ⟨content, found⟩ := Option.isSome_iff_exists.mp own
  simp only [Mapping.read, found, Option.getD_some]

variable [DecidableEq Object] (page objects)

theorem read_write (mapping : Mapping Object Value) (i : Nat) (v : Value) :
    (mapping.write page objects i v).2.read page (mapping.write page objects i v).1 =
      Function.update (mapping.read page objects) i v := by
  funext j
  cases mapping with
  | mapShared object =>
      simp only [Mapping.write, Mapping.read, Function.update_self, Function.update_apply]
  | mapPrivate object copies =>
      by_cases same : page j = page i
      · simp only [Mapping.write, Mapping.read, same, Function.update_self, Option.getD_some,
          Function.update_apply]
      · have other : j ≠ i := fun equal => same (congrArg page equal)
        simp only [Mapping.write, Mapping.read, Function.update_of_ne same, Function.update_of_ne other]

theorem read_writeAll (mapping : Mapping Object Value) (stores : List (Nat × Value)) :
    (mapping.writeAll page objects stores).2.read page (mapping.writeAll page objects stores).1 =
      updateAll (mapping.read page objects) stores := by
  induction stores generalizing mapping objects with
  | nil => rfl
  | cons store rest ih =>
      rw [Mapping.writeAll, ih, read_write]
      rfl

theorem shared_writeAll (object : Object) (stores : List (Nat × Value)) :
    ((Mapping.mapShared object).writeAll page objects stores).1 object =
      updateAll (objects object) stores := by
  have shape : ((Mapping.mapShared object).writeAll page objects stores).2 = .mapShared object := by
    induction stores generalizing objects with
    | nil => rfl
    | cons store rest ih => exact ih _
  have read := read_writeAll page objects (.mapShared object) stores
  rw [shape] at read
  exact read

end Laws

end LinuxMemory.Mappings
