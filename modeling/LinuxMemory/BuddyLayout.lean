import LinuxMemory.Buddy
import LinuxMemory.AlignedBlocks
import Mathlib.Tactic.Ring

/-!
What the arena's memory represents: for every order the list of the indices of
its free blocks. Each list operation of the allocator is one operation on these
lists, since list nodes start at different pages and touch only their first
bytes.
-/

namespace LinuxMemory.Buddy

open ByteMemory LinkedList AlignedBlocks

def addr (base : Nat) (b : Block) : Nat := base + b.index * 2 ^ (b.order + 12)

def handle (base : Nat) (b : Block) : Nat × Nat := (addr base b, b.order)

abbrev Lists := Nat → List Nat

def freeSet (lists : Lists) : Set Block := {b | b.index ∈ lists b.order}

structure Based (base : Nat) : Prop where
  aligned : base % 4096 = 0
  valid : 0 < base
  below : base + 2 ^ 20 < 2 ^ 64

structure Rep (s : Arena) (lists : Lists) : Prop where
  based : Based s.base
  links : ∀ o ≤ 8, Linked 0 (next s.memory) (s.fl o) ((lists o).map fun i => addr s.base ⟨o, i⟩)

def put (lists : Lists) (o : Nat) (indices : List Nat) : Lists :=
  fun other => if other = o then indices else lists other

@[simp] theorem put_same (lists : Lists) (o : Nat) (indices : List Nat) :
    put lists o indices o = indices := by
  simp [put]

theorem put_other (lists : Lists) (o other : Nat) (indices : List Nat) (different : other ≠ o) :
    put lists o indices other = lists other := by
  simp [put, different]

theorem freeSet_cons (lists : Lists) (b : Block) :
    freeSet (put lists b.order (b.index :: lists b.order)) = insert b (freeSet lists) := by
  ext d
  obtain ⟨o, i⟩ := d
  obtain ⟨o', i'⟩ := b
  by_cases same : o = o'
  · subst same
    simp [freeSet]
  · simp [freeSet, put_other _ _ _ _ same, same]

theorem freeSet_erase (lists : Lists) (b : Block) (distinct : (lists b.order).Nodup) :
    freeSet (put lists b.order ((lists b.order).erase b.index)) = freeSet lists \ {b} := by
  ext d
  obtain ⟨o, i⟩ := d
  obtain ⟨o', i'⟩ := b
  by_cases same : o = o'
  · subst same
    simp only at distinct
    simp [freeSet, distinct.mem_erase_iff, and_comm]
  · simp [freeSet, put_other _ _ _ _ same, same]

/-! Addresses of blocks. -/

section Addresses
variable {base : Nat} {b d : Block}

theorem addr_first (base : Nat) (b : Block) : addr base b = base + b.first * 4096 := by
  unfold addr Block.first
  rw [Nat.pow_add, ← Nat.mul_assoc]

theorem addr_page (aligned : base % 4096 = 0) : addr base b % 4096 = 0 := by
  rw [addr_first]
  omega

theorem addr_same_first (same : addr base b = addr base d) : b.first = d.first := by
  rw [addr_first, addr_first] at same
  omega

theorem size_eq (o : Nat) : (1 <<< o) <<< pgLog2 = 2 ^ (o + 12) := by
  rw [pgLog2, Nat.shiftLeft_eq, Nat.shiftLeft_eq, Nat.one_mul, Nat.pow_add]

theorem size_pages (o : Nat) : 2 ^ (o + 12) = 2 ^ o * 4096 := Nat.pow_add 2 o 12

theorem addr_end (base : Nat) (inside : b.Within (root 8)) :
    addr base b + 2 ^ (b.order + 12) ≤ base + 2 ^ 20 := by
  have room := (within_root_iff 8 b).mp inside
  rw [addr_first, size_pages]
  omega

theorem addr_lt (base : Nat) (inside : b.Within (root 8)) : addr base b < base + 2 ^ 20 := by
  have positive := Nat.two_pow_pos (b.order + 12)
  have fits := addr_end base inside
  omega

theorem handle_injective (base : Nat) : Function.Injective (handle base) := by
  rintro ⟨o, i⟩ ⟨o', i'⟩ same
  obtain ⟨address, rfl⟩ := Prod.mk.inj same
  have offsets : i * 2 ^ (o + 12) = i' * 2 ^ (o + 12) := Nat.add_left_cancel address
  simp only [Block.mk.injEq, true_and]
  exact Nat.eq_of_mul_eq_mul_right (Nat.two_pow_pos _) offsets

theorem addr_half (o i : Nat) : addr base ⟨o + 1, i⟩ = addr base ⟨o, 2 * i⟩ := by
  simp only [addr]
  ring

theorem sibling_half (o i : Nat) : (Block.mk o (2 * i)).sibling = ⟨o, 2 * i + 1⟩ := by
  rcases sibling_index (2 * i) with ⟨parity, value⟩ | ⟨parity, value⟩
  · simp only [Block.sibling, value]
  · omega

theorem parent_half (o i : Nat) : (Block.mk o (2 * i)).parent = ⟨o + 1, i⟩ := by
  simp [Block.parent]

theorem addr_parent (base : Nat) (b : Block) :
    (if addr base b.sibling < addr base b then addr base b.sibling else addr base b) =
      addr base b.parent := by
  have positive := Nat.two_pow_pos (b.order + 12)
  have halves : addr base b.parent = base + b.index / 2 * 2 * 2 ^ (b.order + 12) := by
    simp only [addr, Block.parent]
    ring
  rw [halves]
  simp only [addr, Block.sibling, Nat.add_lt_add_iff_left, Nat.mul_lt_mul_right positive]
  rcases sibling_index b.index with ⟨parity, value⟩ | ⟨parity, value⟩
  -- an even index: the block is the lower half
  · rw [value, if_neg (by omega), Nat.div_mul_cancel (by omega)]
  · have even : b.index / 2 * 2 = b.index - 1 := by omega
    rw [value, if_pos (by omega), even]

theorem buddyOf_eq (s : Arena) (lists : Lists) (rep : Rep s lists) (inside : b.Within (root 8))
    (below : b.order < 8) : buddyOf s (addr s.base b) b.order = addr s.base b.sibling := by
  have room := rep.based.below
  have fits := addr_lt s.base inside
  have twin : b.sibling.Within (root 8) := by
    apply within_trans _ b.parent _
    · simpa using within_parent b.sibling
    · exact parent_within _ _ inside below
  have fits' := addr_lt s.base twin
  have offset : Word.sub (addr s.base b) s.base = b.index * 2 ^ (b.order + 12) := by
    rw [Word.sub_exact _ _ (by unfold addr; omega) (by omega)]
    unfold addr
    omega
  unfold buddyOf
  simp only
  -- the xor flips the lowest bit of the index and no other
  rw [offset, size_eq, xor_size]
  apply Word.add_exact
  have shape : addr s.base b.sibling = s.base + (b.index ^^^ 1) * 2 ^ (b.order + 12) := rfl
  omega

end Addresses

/-! What writes do to the `next` fields. -/

section Memory
variable {s : Arena} {lists : Lists}

theorem next_setOrder (base : Nat) (o : Nat) (a b : Nat) (m : Memory) (aligned : a % 4096 = 0)
    (aligned' : b % 4096 = 0) : next (setOrder ⟨m, base, s.fl⟩ b o).memory a = next m a := by
  apply load_store_apart
  unfold Apart
  omega

theorem next_store (m : Memory) (a b value : Nat) (aligned : a % 4096 = 0)
    (aligned' : b % 4096 = 0) (bounded : value < 2 ^ 64) :
    next (storeWord m b value) a = if a = b then value else next m a :=
  loadWord_storeWord m a b value (by omega) (by omega) bounded

theorem flPush_base (s : Arena) (o b : Nat) : (flPush s o b).base = s.base := rfl

theorem flPush_fl (s : Arena) (o b other : Nat) :
    (flPush s o b).fl other = if other = o then b else s.fl other := rfl

theorem next_flPush (s : Arena) (o b a : Nat) (aligned : a % 4096 = 0) (aligned' : b % 4096 = 0)
    (bounded : s.fl o < 2 ^ 64) :
    next (flPush s o b).memory a = if a = b then s.fl o else next (setOrder s b o).memory a :=
  next_store (setOrder s b o).memory a b (s.fl o) aligned aligned' bounded

theorem list_page (rep : Rep s lists) (o a : Nat)
    (member : a ∈ (lists o).map fun i => addr s.base ⟨o, i⟩) : a % 4096 = 0 := by
  obtain ⟨i, -, rfl⟩ := List.mem_map.mp member
  exact addr_page rep.based.aligned

theorem head_lt (rep : Rep s lists) (used : Set Block) (division : Division 8 (freeSet lists) used)
    (o : Nat) (small : o ≤ 8) : s.fl o < 2 ^ 64 := by
  rcases linked_head _ _ (rep.links o small) with empty | listed
  · omega
  · obtain ⟨i, member, start⟩ := List.mem_map.mp listed
    have fits := addr_lt s.base (division.partition.inside ⟨o, i⟩ (Or.inl member))
    have room := rep.based.below
    omega

/-- Whatever else a write does, a list keeps its links when the `next` fields of
its nodes stay. -/
theorem rep_setOrder (rep : Rep s lists) (b o : Nat) (aligned : b % 4096 = 0) :
    Rep (setOrder s b o) lists := by
  refine ⟨rep.based, fun other small => ?_⟩
  apply linked_congr _ _ (rep.links other small)
  intro a member
  exact next_setOrder s.base o a b s.memory (list_page rep other a member) aligned

theorem rep_flPush (rep : Rep s lists) (used : Set Block)
    (division : Division 8 (freeSet lists) used) (b : Block) (small : b.order ≤ 8)
    (fresh : ∀ d ∈ freeSet lists, addr s.base d ≠ addr s.base b) :
    Rep (flPush s b.order (addr s.base b)) (put lists b.order (b.index :: lists b.order)) := by
  have page : addr s.base b % 4096 = 0 := addr_page rep.based.aligned
  have marked := rep_setOrder rep (addr s.base b) b.order page
  have bounded := head_lt rep used division b.order small
  -- the link write hits the new block only, which no list holds yet
  have keeps : ∀ o a, a ∈ (lists o).map (fun i => addr s.base ⟨o, i⟩) →
      next (flPush s b.order (addr s.base b)).memory a =
        next (setOrder s (addr s.base b) b.order).memory a := by
    intro o a member
    rw [next_flPush s _ _ a (list_page rep o a member) page bounded, if_neg]
    obtain ⟨i, inside, rfl⟩ := List.mem_map.mp member
    exact fresh ⟨o, i⟩ inside
  refine ⟨by rw [flPush_base]; exact rep.based, fun o within => ?_⟩
  have old : Linked 0 (next (setOrder s (addr s.base b) b.order).memory) (s.fl o)
      ((lists o).map fun i => addr s.base ⟨o, i⟩) := marked.links o within
  rw [flPush_base, flPush_fl]
  by_cases same : o = b.order
  · subst same
    rw [put_same, if_pos rfl, List.map_cons]
    refine linked_push _ _ _ old ?_ ?_ (keeps b.order)
    · have valid := rep.based.valid
      unfold addr
      omega
    · rw [next_flPush s _ _ _ page page bounded, if_pos rfl]
  · rw [put_other _ _ _ _ same, if_neg same]
    exact linked_congr _ _ old (keeps o)

theorem rep_setHead (rep : Rep s lists) (o i : Nat) (rest : List Nat) (small : o ≤ 8)
    (shape : lists o = i :: rest) :
    Rep (setHead s o (next s.memory (addr s.base ⟨o, i⟩))) (put lists o rest) := by
  refine ⟨rep.based, fun other within => ?_⟩
  by_cases same : other = o
  · subst same
    have links := rep.links other small
    rw [shape] at links
    simpa [setHead] using links.2.2
  · simpa [setHead, same, put_other _ _ _ _ same] using rep.links other within

theorem lists_nodup (rep : Rep s lists) (o : Nat) (small : o ≤ 8) : (lists o).Nodup :=
  List.Nodup.of_map _ (linked_nodup _ _ (rep.links o small))

theorem free_addr_inj (used : Set Block) (division : Division 8 (freeSet lists) used) (base : Nat)
    (b d : Block) (isFree : b ∈ freeSet lists) (isFree' : d ∈ freeSet lists)
    (same : addr base b = addr base d) : b = d := by
  have starts := addr_same_first same
  exact division.partition.unique _ (Or.inl isFree) _ (Or.inl isFree') _ (covers_first b)
    (starts ▸ covers_first d)

end Memory

/-! The bytes of the used blocks. -/

theorem inside_covers (base address : Nat) (b : Block) (inside : Inside (addr base b) b.order address) :
    b.Covers ((address - base) / 4096) := by
  obtain ⟨low, high⟩ := inside
  rw [blockSize, size_eq, size_pages] at high
  rw [addr_first] at low high
  rw [covers_iff]
  omega

/-- The arena stays where it is, and no byte of a used block changes. -/
structure Stable (used : Set Block) (s s' : Arena) : Prop where
  base : s'.base = s.base
  bytes : ∀ b ∈ used, ∀ address, Inside (addr s.base b) b.order address →
    s'.memory address = s.memory address

theorem stable_refl (used : Set Block) (s : Arena) : Stable used s s := ⟨rfl, fun _ _ _ _ => rfl⟩

theorem stable_trans (used : Set Block) (s s' s'' : Arena) (left : Stable used s s')
    (right : Stable used s' s'') : Stable used s s'' := by
  refine ⟨right.base.trans left.base, fun b member address inside => ?_⟩
  rw [right.bytes b member address (left.base ▸ inside), left.bytes b member address inside]

theorem stable_first (blocks used : Set Block) (partition : Partition 8 blocks) (part : used ⊆ blocks)
    (d : Block) (member : d ∈ blocks) (fresh : d ∉ used) (s s' : Arena) (base : s'.base = s.base)
    (outside : ∀ byte, byte < addr s.base d ∨ addr s.base d + 4096 ≤ byte →
      s'.memory byte = s.memory byte) : Stable used s s' := by
  refine ⟨base, fun b isUsed address inside => outside address ?_⟩
  by_contra hit
  have covered := inside_covers s.base address b inside
  -- an address in the first page of `d` is on a page of `d`, and `b` covers it too
  have page : (address - s.base) / 4096 = d.first := by
    rw [addr_first] at hit
    omega
  have same := partition.unique b (part isUsed) d member _ covered (page ▸ covers_first d)
  exact fresh (same ▸ isUsed)

theorem setOrder_outside (s : Arena) (b o byte : Nat) (outside : byte < b ∨ b + 4096 ≤ byte) :
    (setOrder s b o).memory byte = s.memory byte := by
  apply store_outside
  omega

theorem flPush_outside (s : Arena) (o b byte : Nat) (outside : byte < b ∨ b + 4096 ≤ byte) :
    (flPush s o b).memory byte = s.memory byte := by
  refine Eq.trans (store_outside (setOrder s b o).memory 8 b (s.fl o) byte ?_)
    (setOrder_outside s b o byte outside)
  omega

end LinuxMemory.Buddy
