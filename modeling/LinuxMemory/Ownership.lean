import LinuxMemory.ByteMemory
import LinuxMemory.Transition

/-!
What the clients of an allocator hold: blocks of memory, and for each byte the
value that was last written to it since its block was handed out. `Kept` says
that the memory still has these values. An allocator whose calls do not touch
the held blocks keeps them in every run.
-/

namespace LinuxMemory.Ownership

open ByteMemory Transition

abbrev Block := Nat × Nat

def Inside (block : Block) (address : Nat) : Prop :=
  block.1 ≤ address ∧ address < block.1 + block.2

instance (block : Block) (address : Nat) : Decidable (Inside block address) :=
  inferInstanceAs (Decidable (_ ∧ _))

def Within (inner outer : Block) : Prop :=
  outer.1 ≤ inner.1 ∧ inner.1 + inner.2 ≤ outer.1 + outer.2

def Separate (left right : Block) : Prop :=
  left.1 + left.2 ≤ right.1 ∨ right.1 + right.2 ≤ left.1

structure Holdings where
  blocks : List Block
  written : Nat → Option UInt8

namespace Holdings

def nothing : Holdings := ⟨[], fun _ => none⟩

/-- A block that is handed out has not been written yet. -/
def take (held : Holdings) (block : Block) : Holdings :=
  ⟨block :: held.blocks, fun address => if Inside block address then none else held.written address⟩

def drop (held : Holdings) (block : Block) : Holdings :=
  { held with blocks := held.blocks.erase block }

def write (held : Holdings) (address : Nat) (value : UInt8) : Holdings :=
  { held with written := fun byte => if byte = address then some value else held.written byte }

end Holdings

/-- Every byte that was written in a held block has the value last written. -/
def Kept (memory : Memory) (held : Holdings) : Prop :=
  ∀ block ∈ held.blocks, ∀ address, Inside block address → ∀ value,
    held.written address = some value → memory address = value

def Untouched (before after : Memory) (blocks : List Block) : Prop :=
  ∀ block ∈ blocks, ∀ address, Inside block address → after address = before address

theorem untouched_refl (memory : Memory) (blocks : List Block) : Untouched memory memory blocks :=
  fun _ _ _ _ => rfl

theorem kept_nothing (memory : Memory) : Kept memory Holdings.nothing := by
  intro block member
  simp [Holdings.nothing] at member

theorem kept_untouched (before after : Memory) (held : Holdings) (kept : Kept before held)
    (same : Untouched before after held.blocks) : Kept after held := by
  intro block member address inside value last
  rw [same block member address inside]
  exact kept block member address inside value last

theorem kept_take (before after : Memory) (held : Holdings) (block : Block)
    (kept : Kept before held) (same : Untouched before after held.blocks) :
    Kept after (held.take block) := by
  intro other member address inside value last
  simp only [Holdings.take] at last
  split at last
  · simp at last
  · next outside =>
      rcases List.mem_cons.mp member with rfl | older
      · exact absurd inside outside
      · exact kept_untouched before after held kept same other older address inside value last

theorem kept_drop (before after : Memory) (held : Holdings) (block : Block)
    (kept : Kept before held) (same : Untouched before after (held.drop block).blocks) :
    Kept after (held.drop block) := by
  apply kept_untouched before after (held.drop block) _ same
  intro other member address inside value last
  exact kept other (List.mem_of_mem_erase member) address inside value last

theorem kept_write (memory : Memory) (held : Holdings) (address : Nat) (value : UInt8)
    (kept : Kept memory held) : Kept (poke memory address value) (held.write address value) := by
  intro block member byte inside last written
  simp only [Holdings.write] at written
  by_cases same : byte = address
  · simpa [poke, same] using written
  · rw [if_neg same] at written
    simpa [poke, same] using kept block member byte inside last written

/-- What an event may do to the memory and to what is held. -/
inductive Change (memory : Memory) (held : Holdings) : Memory → Holdings → Prop where
  | call {after : Memory} (same : Untouched memory after held.blocks) : Change memory held after held
  | take {after : Memory} {block : Block} (same : Untouched memory after held.blocks) :
      Change memory held after (held.take block)
  | drop {after : Memory} {block : Block} (same : Untouched memory after (held.drop block).blocks) :
      Change memory held after (held.drop block)
  | write {address : Nat} {value : UInt8} :
      Change memory held (poke memory address value) (held.write address value)

theorem change_alloc (memory after : Memory) (held : Holdings) (p size : Nat)
    (same : Untouched memory after held.blocks) :
    Change memory held after (if p = 0 then held else held.take (p, size)) := by
  by_cases null : p = 0
  · rw [if_pos null]
    exact .call same
  · rw [if_neg null]
    exact .take same

theorem kept_change (before after : Memory) (held held' : Holdings) (kept : Kept before held)
    (change : Change before held after held') : Kept after held' := by
  cases change with
  | call same => exact kept_untouched before after held kept same
  | take same => exact kept_take before after held _ kept same
  | drop same => exact kept_drop before after held _ kept same
  | write => exact kept_write before held _ _ kept

section Runs
variable {State Event : Type}

/-- The rule for runs: every step from a sound state is such a change. -/
theorem reachable_kept (system : System State Event) (memory : State → Memory)
    (held : State → Holdings) (sound : State → Prop)
    (initially : ∀ s, system.start s → sound s ∧ held s = Holdings.nothing)
    (preserved : ∀ before event after, sound before → system.step before event after →
      sound after ∧ Change (memory before) (held before) (memory after) (held after))
    (s : State) (run : Reachable system s) : sound s ∧ Kept (memory s) (held s) := by
  refine reachable_invariant system (fun s => sound s ∧ Kept (memory s) (held s)) ?_ ?_ s run
  · intro first start
    obtain ⟨begins, none⟩ := initially first start
    exact ⟨begins, none ▸ kept_nothing (memory first)⟩
  · rintro before event after ⟨here, kept⟩ next
    obtain ⟨there, change⟩ := preserved before event after here next
    exact ⟨there, kept_change _ _ _ _ kept change⟩

end Runs

/-! Blocks at different addresses. -/

section Addresses
variable {blocks : List Block} {block other : Block}

theorem erase_address (distinct : (blocks.map (·.1)).Nodup) (member : block ∈ blocks) :
    (blocks.erase block).map (·.1) = (blocks.map (·.1)).erase block.1 := by
  induction blocks with
  | nil => cases member
  | cons first rest ih =>
      by_cases same : first = block
      · rw [same, List.erase_cons_head, List.map_cons, List.erase_cons_head]
      · have later := (List.mem_cons.mp member).resolve_left (Ne.symm same)
        obtain ⟨fresh, distinct'⟩ := List.nodup_cons.mp distinct
        have different : first.1 ≠ block.1 := fun equal =>
          fresh (List.mem_map.mpr ⟨block, later, equal.symm⟩)
        rw [List.erase_cons_tail (by simpa using same), List.map_cons, List.map_cons,
          List.erase_cons_tail (by simpa using different), ih distinct' later]

theorem address_dropped (distinct : (blocks.map (·.1)).Nodup) (member : block ∈ blocks)
    (left : other ∈ blocks.erase block) : other.1 ≠ block.1 := by
  intro same
  have again : block.1 ∈ (blocks.erase block).map (·.1) := List.mem_map.mpr ⟨other, left, same⟩
  rw [erase_address distinct member] at again
  exact distinct.not_mem_erase again

end Addresses

end LinuxMemory.Ownership
