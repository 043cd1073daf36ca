import LinuxMemory.BuddyRuns
import LinuxMemory.Ownership

/-!
What a client of the buddy allocator may rely on in every run: the arena stays
divided into aligned blocks with no two free siblings, and a request is refused
only when no aligned block of its order is clear.
-/

namespace LinuxMemory.Buddy

open ByteMemory LinkedList AlignedBlocks Transition

/-- The blocks on `fl[o]`; no list is longer than the arena has pages. -/
def blocksOn (s : Arena) (o : Nat) : List Nat := walk 0 (next s.memory) totalPages (s.fl o)

def allBlocks (c : Client) : List (Nat × Nat) :=
  c.live ++ (List.range (maxOrder + 1)).flatMap fun o => (blocksOn c.arena o).map fun a => (a, o)

def Disjoint (left right : Nat × Nat) : Prop :=
  Ownership.Separate (left.1, blockSize left.2) (right.1, blockSize right.2)

structure BuddyInvariant (c : Client) : Prop where
  aligned : ∀ o ≤ maxOrder, ∀ a ∈ blocksOn c.arena o,
    c.arena.base ≤ a ∧ (a - c.arena.base) % blockSize o = 0
  linked : ∀ o ≤ maxOrder, Linked 0 (next c.arena.memory) (c.arena.fl o) (blocksOn c.arena o)
  once : ((List.range (maxOrder + 1)).flatMap (blocksOn c.arena)).Nodup
  disjoint : (allBlocks c).Pairwise Disjoint
  inside : ∀ x ∈ allBlocks c,
    c.arena.base ≤ x.1 ∧ x.1 + blockSize x.2 ≤ c.arena.base + arenaBytes
  cover : ∀ address, c.arena.base ≤ address → address < c.arena.base + arenaBytes →
    ∃ x ∈ allBlocks c, Inside x.1 x.2 address
  merged : ∀ o < maxOrder, ∀ a ∈ blocksOn c.arena o, buddyOf c.arena a o ∉ blocksOn c.arena o

/-- What a non-null result of `buddy_alloc(pages)` is. -/
structure Allocated (c : Client) (pages : Int) (p : Nat) (order : Nat) : Prop where
  least : LeastOrder pages order
  aligned : c.arena.base ≤ p ∧ (p - c.arena.base) % blockSize order = 0
  inside : p + blockSize order ≤ c.arena.base + arenaBytes
  others : ∀ x ∈ c.live, Disjoint (p, order) x

section Blocks
variable {mapped : Nat} {c : Client} {used : List Block} {s : Arena} {lists : Lists}
variable {set : Set Block}

theorem arenaBytes_eq : arenaBytes = 2 ^ 20 := by decide

theorem blocksOn_eq (holds : Holds s set lists) (o : Nat) (small : o ≤ 8) :
    blocksOn s o = (lists o).map fun i => addr s.base ⟨o, i⟩ := by
  apply walk_eq _ _ _ (holds.rep.links o small)
  rw [List.length_map]
  exact lists_length holds o small

theorem mem_blocksOn (holds : Holds s set lists) (b : Block) (small : b.order ≤ 8) :
    addr s.base b ∈ blocksOn s b.order ↔ b ∈ freeSet lists := by
  rw [blocksOn_eq holds _ small]
  constructor
  · intro listed
    obtain ⟨i, member, same⟩ := List.mem_map.mp listed
    have twin : (⟨b.order, i⟩ : Block) = b := handle_injective s.base (Prod.ext same rfl)
    exact twin ▸ member
  · intro isFree
    exact List.mem_map.mpr ⟨b.index, isFree, rfl⟩

def ledger (used : List Block) (lists : Lists) : List Block :=
  used ++ (List.range 9).flatMap fun o => (lists o).map (Block.mk o)

theorem mem_ledger (holds : Holds s (usedSet used) lists) (b : Block) :
    b ∈ ledger used lists ↔ b ∈ freeSet lists ∪ usedSet used := by
  unfold ledger
  simp only [List.mem_append, List.mem_flatMap, List.mem_range, List.mem_map]
  constructor
  · rintro (isUsed | ⟨o, small, i, listed, rfl⟩)
    · exact Or.inr isUsed
    · exact Or.inl listed
  · rintro (isFree | isUsed)
    · exact Or.inr ⟨b.order, Nat.lt_succ_of_le (free_small holds b isFree), b.index, isFree, rfl⟩
    · exact Or.inl isUsed

theorem frees_nodup (holds : Holds s set lists) :
    ((List.range 9).flatMap fun o => (lists o).map (Block.mk o)).Nodup := by
  apply List.nodup_flatMap.mpr
  refine ⟨fun o member => ?_, ?_⟩
  · apply List.Nodup.map
    · intro i j same
      exact congrArg Block.index same
    · exact lists_nodup holds.rep o (Nat.le_of_lt_succ (List.mem_range.mp member))
  · apply List.Pairwise.imp _ List.pairwise_lt_range
    intro o o' less b inLeft inRight
    obtain ⟨i, -, rfl⟩ := List.mem_map.mp inLeft
    obtain ⟨j, -, same⟩ := List.mem_map.mp inRight
    have orders := congrArg Block.order same
    simp only at orders
    omega

theorem ledger_nodup (holds : Holds s (usedSet used) lists) (distinct : used.Nodup) :
    (ledger used lists).Nodup := by
  apply List.nodup_append.mpr
  refine ⟨distinct, frees_nodup holds, ?_⟩
  rintro b isUsed d listed rfl
  obtain ⟨o, -, inside⟩ := List.mem_flatMap.mp listed
  obtain ⟨i, isFree, rfl⟩ := List.mem_map.mp inside
  exact holds.division.exclusive _ isFree isUsed

theorem allBlocks_eq (related : Related mapped c used) (holds : Holds c.arena (usedSet used) lists) :
    allBlocks c = (ledger used lists).map (handle mapped) := by
  unfold allBlocks ledger
  rw [related.live, List.map_append, List.map_flatMap]
  congr 1
  apply List.flatMap_congr
  intro o member
  have small : o ≤ 8 := Nat.le_of_lt_succ (List.mem_range.mp member)
  rw [blocksOn_eq holds o small, List.map_map, List.map_map, related.base]
  rfl

theorem handle_disjoint (base : Nat) (b d : Block)
    (apart : b.first + 2 ^ b.order ≤ d.first ∨ d.first + 2 ^ d.order ≤ b.first) :
    Disjoint (handle base b) (handle base d) := by
  unfold Disjoint Ownership.Separate blockSize handle
  simp only [size_eq, size_pages, addr_first]
  omega

theorem handle_inside (base : Nat) (b : Block) (inside : b.Within (root 8)) :
    base ≤ (handle base b).1 ∧
      (handle base b).1 + blockSize (handle base b).2 ≤ base + arenaBytes := by
  refine ⟨Nat.le_add_right _ _, ?_⟩
  rw [blockSize, size_eq, arenaBytes_eq]
  exact addr_end base inside

theorem handle_aligned (base : Nat) (b : Block) :
    base ≤ addr base b ∧ (addr base b - base) % blockSize b.order = 0 := by
  refine ⟨Nat.le_add_right _ _, ?_⟩
  rw [blockSize, size_eq, addr, Nat.add_sub_cancel_left, Nat.mul_mod_left]

theorem covers_inside (base address : Nat) (b : Block) (low : base ≤ address)
    (covered : b.Covers ((address - base) / 4096)) : Inside (addr base b) b.order address := by
  rw [covers_iff] at covered
  unfold Inside
  rw [blockSize, size_eq, size_pages, addr_first]
  omega

theorem blocksOn_once (holds : Holds s set lists) :
    ((List.range (maxOrder + 1)).flatMap (blocksOn s)).Nodup := by
  have shape : (List.range (maxOrder + 1)).flatMap (blocksOn s) =
      ((List.range 9).flatMap fun o => (lists o).map (Block.mk o)).map (addr s.base) := by
    rw [List.map_flatMap]
    apply List.flatMap_congr
    intro o member
    rw [blocksOn_eq holds o (Nat.le_of_lt_succ (List.mem_range.mp member)), List.map_map]
    rfl
  rw [shape]
  have isFree : ∀ b ∈ (List.range 9).flatMap (fun o => (lists o).map (Block.mk o)), b ∈ freeSet lists := by
    intro b member
    obtain ⟨o, -, inside⟩ := List.mem_flatMap.mp member
    obtain ⟨i, listed, rfl⟩ := List.mem_map.mp inside
    exact listed
  exact List.Nodup.map_on (fun b inLeft d inRight same =>
    free_addr_inj set holds.division s.base b d (isFree b inLeft) (isFree d inRight) same)
    (frees_nodup holds)

theorem related_invariant (related : Related mapped c used) : BuddyInvariant c := by
  obtain ⟨lists, holds⟩ := related.holds
  have base := related.base
  have blocks := allBlocks_eq related holds
  constructor
  · intro o small a listed
    rw [blocksOn_eq holds o small] at listed
    obtain ⟨i, -, rfl⟩ := List.mem_map.mp listed
    exact handle_aligned _ ⟨o, i⟩
  · intro o small
    rw [blocksOn_eq holds o small]
    exact holds.rep.links o small
  · exact blocksOn_once holds
  · rw [blocks, List.pairwise_map]
    apply (ledger_nodup holds related.distinct).pairwise_of_forall_ne
    intro b inLeft d inRight different
    apply handle_disjoint
    exact partition_apart 8 _ holds.division.partition b d ((mem_ledger holds b).mp inLeft)
      ((mem_ledger holds d).mp inRight) different
  · rw [blocks, base]
    intro x member
    obtain ⟨b, listed, rfl⟩ := List.mem_map.mp member
    exact handle_inside mapped b (holds.division.partition.inside b ((mem_ledger holds b).mp listed))
  · rw [blocks, base, arenaBytes_eq]
    intro address low high
    -- every page of the arena is in some block
    obtain ⟨b, member, covered⟩ := holds.division.partition.cover ((address - mapped) / 4096) (by omega)
    exact ⟨handle mapped b, List.mem_map_of_mem ((mem_ledger holds b).mpr member),
      covers_inside mapped address b low covered⟩
  · intro o below a listed twin
    rw [blocksOn_eq holds o (Nat.le_of_lt below)] at listed
    obtain ⟨i, isFree, rfl⟩ := List.mem_map.mp listed
    have member : (⟨o, i⟩ : Block) ∈ freeSet lists := isFree
    have inside := holds.division.partition.inside _ (Or.inl member)
    rw [buddyOf_eq c.arena lists holds.rep inside below] at twin
    -- a buddy on the same list would be a free sibling
    have isFree' := (mem_blocksOn holds (Block.mk o i).sibling (Nat.le_of_lt below)).mp twin
    exact holds.division.merged _ member isFree'

theorem clear_apart (b : Block) (clear : Clear 8 (usedSet used) b) (d : Block) (isUsed : d ∈ used) :
    b.first + 2 ^ b.order ≤ d.first ∨ d.first + 2 ^ d.order ≤ b.first := by
  rcases apart_or_common b d with apart | ⟨page, covered, covered'⟩
  · exact apart
  · exact absurd covered' (clear.2 page covered d isUsed)

theorem clear_allocated (related : Related mapped c used) (pages : Int) (b : Block)
    (rounded : orderOf pages = some b.order) (clear : Clear 8 (usedSet used) b) :
    Allocated c pages (addr mapped b) b.order := by
  constructor
  · exact orderOf_least pages b.order rounded
  · rw [related.base]
    exact handle_aligned mapped b
  · rw [related.base]
    exact (handle_inside mapped b clear.1).2
  · rw [related.live]
    intro x member
    obtain ⟨d, isUsed, rfl⟩ := List.mem_map.mp member
    exact handle_disjoint mapped b d (clear_apart b clear d isUsed)

end Blocks

/-- After every run the arena is divided as it should be, every further call
returns, and a granted block is aligned, of the least order, and clear of the
live blocks. -/
theorem buddy_invariant (mapped : Nat) (c : Client) (run : Run mapped c) :
    BuddyInvariant c ∧
    (∀ pages ≤ 256, ∃ result, buddyAlloc c.arena pages = some result) ∧
    (∀ p order pages, (p, order) ∈ c.live → orderOf pages = some order →
      ∃ fuel arena, buddyFree fuel c.arena p pages = some arena) ∧
    (∀ pages ≤ 256, ∀ arena p, buddyAlloc c.arena pages = some (arena, p) → p ≠ 0 →
      ∃ order, Allocated c pages p order) := by
  obtain ⟨used, related⟩ := run_related mapped c run
  refine ⟨related_invariant related, ?_, ?_, ?_⟩
  · intro pages small
    obtain ⟨order, -, rounded⟩ := orderOf_small pages small
    exact ⟨_, by rw [buddyAlloc, rounded]; rfl⟩
  · intro p order pages held rounded
    obtain ⟨b, member, rfl, rfl⟩ := held_block related p order held
    exact ⟨257, free_returns related b member 257 (by decide) pages rounded⟩
  · intro pages small arena p returned granting
    obtain ⟨order, -, rounded⟩ := orderOf_small pages small
    rcases related_alloc related pages p order arena rounded returned with
      ⟨isNull, -, -⟩ | ⟨b, rfl, rfl, clear, -⟩
    · exact absurd isNull granting
    · exact ⟨b.order, clear_allocated related pages b rounded clear⟩

def fresh : Client := ⟨buddyInit (fun _ => 0) 4096, []⟩

theorem fresh_started : Started 4096 fresh := ⟨⟨by decide, by decide, by decide, by decide⟩, _, rfl⟩

theorem fresh_run : Run 4096 fresh := .start fresh_started

theorem fresh_alloc : ∃ arena, buddyAlloc fresh.arena 3 = some (arena, 4096) := by
  have evaluated : (buddyAlloc fresh.arena 3).map (·.2) = some 4096 := by decide +kernel
  obtain ⟨⟨arena, p⟩, returned, rfl⟩ := Option.map_eq_some_iff.mp evaluated
  exact ⟨arena, returned⟩

theorem buddy_invariant_fresh : ∃ arena, buddyAlloc fresh.arena 3 = some (arena, 4096) ∧
    BuddyInvariant ⟨arena, [(4096, 2)]⟩ := by
  obtain ⟨arena, returned⟩ := fresh_alloc
  have granted : Run 4096 ⟨arena, [(4096, 2)]⟩ :=
    .step fresh_run (.alloc (by decide) (by decide) returned)
  exact ⟨arena, returned, (buddy_invariant 4096 _ granted).1⟩

/-! When `buddy_alloc` refuses, and which pages a grant takes. -/

/-- An aligned block of the arena that no live block meets, by its offset. -/
structure ClearBlock (c : Client) (order offset : Nat) : Prop where
  aligned : offset % blockSize order = 0
  inside : offset + blockSize order ≤ arenaBytes
  unused : ∀ x ∈ c.live, Disjoint (c.arena.base + offset, order) x

def Idle (c : Client) (page : Nat) : Prop :=
  page < totalPages ∧ ∀ x ∈ c.live, ¬ Inside x.1 x.2 (c.arena.base + page * 4096)

/-- Between the two states exactly the pages of the block at `p` stop being idle. -/
def Takes (c c' : Client) (p order : Nat) : Prop :=
  ∃ first, p = c.arena.base + first * 4096 ∧
    (∀ page, first ≤ page → page < first + 2 ^ order → Idle c page) ∧
    ∀ page, Idle c' page ↔ Idle c page ∧ ¬ (first ≤ page ∧ page < first + 2 ^ order)

section Refusal
variable {mapped : Nat} {c : Client} {used : List Block}

theorem clearBlock_iff (related : Related mapped c used) (b : Block) :
    ClearBlock c b.order (b.first * 4096) ↔ Clear 8 (usedSet used) b := by
  have address : c.arena.base + b.first * 4096 = addr mapped b := by
    rw [addr_first, related.base]
  constructor
  · rintro ⟨-, inside, unused⟩
    have within : b.Within (root 8) := by
      rw [blockSize, size_eq, size_pages, arenaBytes_eq] at inside
      exact (within_root_iff 8 b).mpr (by omega)
    refine ⟨within, fun page covered d isUsed covered' => ?_⟩
    have apart := unused (handle mapped d) (related.live ▸ List.mem_map_of_mem isUsed)
    rw [address] at apart
    simp only [Disjoint, Ownership.Separate, handle, blockSize, size_eq, size_pages, addr_first] at apart
    rw [covers_iff] at covered covered'
    omega
  · intro clear
    have room := (within_root_iff 8 b).mp clear.1
    constructor
    · rw [blockSize, size_eq, size_pages, Block.first, Nat.mul_assoc]
      exact Nat.mul_mod_left _ _
    · rw [blockSize, size_eq, size_pages, arenaBytes_eq]
      omega
    · rw [related.live, address]
      intro x member
      obtain ⟨d, isUsed, rfl⟩ := List.mem_map.mp member
      exact handle_disjoint mapped b d (clear_apart b clear d isUsed)

theorem aligned_offset (order offset : Nat) (aligned : offset % blockSize order = 0) :
    offset = (Block.mk order (offset / blockSize order)).first * 4096 := by
  rw [blockSize, size_eq, size_pages] at aligned ⊢
  rw [Block.first, Nat.mul_assoc]
  exact (Nat.div_mul_cancel (Nat.dvd_of_mod_eq_zero aligned)).symm

theorem idle_iff (related : Related mapped c used) (page : Nat) :
    Idle c page ↔ page < 256 ∧ ∀ d ∈ used, ¬ d.Covers page := by
  have start : (c.arena.base + page * 4096 - c.arena.base) / 4096 = page := by omega
  unfold Idle
  rw [related.live]
  constructor
  · rintro ⟨bounded, unused⟩
    refine ⟨bounded, fun d isUsed covered => ?_⟩
    apply unused (handle mapped d) (List.mem_map_of_mem isUsed)
    rw [← start, related.base] at covered
    rw [related.base]
    exact covers_inside mapped _ d (Nat.le_add_right _ _) covered
  · rintro ⟨bounded, unused⟩
    refine ⟨bounded, fun x member inside => ?_⟩
    obtain ⟨d, isUsed, rfl⟩ := List.mem_map.mp member
    apply unused d isUsed
    rw [← start, related.base]
    rw [related.base] at inside
    exact inside_covers mapped _ d inside

theorem grant_takes (related : Related mapped c used) (b : Block) (clear : Clear 8 (usedSet used) b)
    (c' : Client) (related' : Related mapped c' (b :: used)) :
    Takes c c' (addr mapped b) b.order := by
  have room := (within_root_iff 8 b).mp clear.1
  refine ⟨b.first, by rw [addr_first, related.base], fun page low high => ?_, fun page => ?_⟩
  · have covered := (covers_iff b page).mpr ⟨low, high⟩
    exact (idle_iff related page).mpr ⟨by omega, fun d isUsed => clear.2 page covered d isUsed⟩
  · rw [idle_iff related, idle_iff related', ← covers_iff]
    simp only [List.forall_mem_cons]
    constructor
    · rintro ⟨bounded, outside, unused⟩
      exact ⟨⟨bounded, unused⟩, outside⟩
    · rintro ⟨⟨bounded, unused⟩, outside⟩
      exact ⟨bounded, outside, unused⟩

end Refusal

/-- `buddy_alloc` refuses a request only when no aligned block of its order is
clear of live pages, and takes no other pages than those it grants. -/
theorem alloc_refuses_iff (mapped : Nat) (c : Client) (run : Run mapped c) (pages : Int)
    (small : pages ≤ 256) :
    ∃ order arena p, LeastOrder pages order ∧ buddyAlloc c.arena pages = some (arena, p) ∧
      (p = 0 ↔ ¬ ∃ offset, ClearBlock c order offset) ∧ (p = 0 → arena = c.arena) ∧
      (p ≠ 0 → Takes c ⟨arena, (p, order) :: c.live⟩ p order) := by
  obtain ⟨used, related⟩ := run_related mapped c run
  obtain ⟨order, -, rounded⟩ := orderOf_small pages small
  obtain ⟨arena, p, returned⟩ : ∃ arena p, buddyAlloc c.arena pages = some (arena, p) :=
    ⟨_, _, by rw [buddyAlloc, rounded]; rfl⟩
  refine ⟨order, arena, p, orderOf_least pages order rounded, returned, ?_⟩
  rcases related_alloc related pages p order arena rounded returned with
    ⟨rfl, rfl, full⟩ | ⟨b, rfl, rfl, clear, related'⟩
  · refine ⟨iff_of_true rfl ?_, fun _ => rfl, fun granting => absurd rfl granting⟩
    rintro ⟨offset, unused⟩
    rw [aligned_offset order offset unused.aligned] at unused
    exact full _ rfl ((clearBlock_iff related ⟨order, _⟩).mp unused)
  · have granting := addr_not_null related b
    refine ⟨iff_of_false granting (fun none => none ⟨_, (clearBlock_iff related b).mpr clear⟩),
      fun isNull => absurd isNull granting, fun _ => grant_takes related b clear _ related'⟩

theorem alloc_refuses_fresh : ∃ order arena p, LeastOrder 3 order ∧
    buddyAlloc fresh.arena 3 = some (arena, p) ∧ p ≠ 0 ∧ Takes fresh ⟨arena, [(p, order)]⟩ p order := by
  obtain ⟨order, arena, p, least, returned, -, -, takes⟩ :=
    alloc_refuses_iff 4096 fresh fresh_run 3 (by decide)
  obtain ⟨arena', returned'⟩ := fresh_alloc
  obtain ⟨rfl, rfl⟩ := Prod.mk.inj (Option.some.inj (returned.symm.trans returned'))
  exact ⟨order, arena, 4096, least, returned, by decide, takes (by decide)⟩

/-! Requests that are too large. -/

/-- What both calls need of their loop for a request of `pages` pages, and what
follows for `buddy_alloc`. -/
structure OrderComputed (pages : Int) : Prop where
  ends : ∃ fuel order, orderFrom pages fuel 1 0 = some order ∧ LeastOrder pages order
  refused : 256 < pages → ∀ s, buddyAlloc s pages = some (s, 0)

theorem orderOf_returns (pages : Int) (bounded : pages ≤ 2 ^ 30) :
    ∃ order, orderOf pages = some order := by
  obtain ⟨order, rounded, -⟩ := orderFrom_returns pages 30 32 0 (by decide) bounded (by decide)
  exact ⟨order, rounded⟩

theorem alloc_refuses_large (pages : Int) (order : Nat) (rounded : orderOf pages = some order)
    (large : 256 < pages) (s : Arena) : buddyAlloc s pages = some (s, 0) := by
  have enough := (orderOf_least pages order rounded).1
  have beyond : order > maxOrder := by
    by_contra small
    have bounded : (2 ^ order : Int) ≤ 2 ^ 8 :=
      pow_le_pow_right₀ (by decide) (Nat.le_of_not_lt small)
    omega
  rw [buddyAlloc, rounded, Option.map_some, allocOrder, if_pos beyond]

/-- The loop copes with an `int` exactly up to `2 ^ 30`. -/
theorem order_computed_iff (pages : Int) : OrderComputed pages ↔ pages ≤ 2 ^ 30 := by
  constructor
  · rintro ⟨⟨fuel, order, returned, -⟩, -⟩
    by_contra large
    have overflows := orderFrom_overflows pages (Int.not_le.mp large) fuel 0 (by decide)
    rw [pow_zero, returned] at overflows
    cases overflows
  · intro bounded
    obtain ⟨order, rounded⟩ := orderOf_returns pages bounded
    constructor
    · exact ⟨32, order, rounded, orderOf_least pages order rounded⟩
    · exact fun large s => alloc_refuses_large pages order rounded large s

/-- `buddy_alloc(2 ^ 30 + 1)`. -/
theorem order_overflows :
    ¬ ∀ pages : Int, -2 ^ 31 ≤ pages → pages < 2 ^ 31 → OrderComputed pages := by
  intro total
  obtain ⟨fuel, order, returned, -⟩ := (total (2 ^ 30 + 1) (by decide) (by decide)).ends
  have overflows := orderFrom_overflows (2 ^ 30 + 1) (by decide) fuel 0 (by decide)
  rw [pow_zero, returned] at overflows
  cases overflows

end LinuxMemory.Buddy
