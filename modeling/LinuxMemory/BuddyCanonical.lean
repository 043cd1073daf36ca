import LinuxMemory.BuddyGuarantees

/-!
The live blocks determine what is on every free list of the buddy allocator: the
maximal aligned blocks without a live page, whatever order of calls and merges
led there.
-/

namespace LinuxMemory.Buddy

open ByteMemory LinkedList AlignedBlocks Transition

def freeOffsets (s : Arena) (o : Nat) : List Nat := (blocksOn s o).map fun a => a - s.base

def liveOffsets (c : Client) : List (Nat × Nat) := c.live.map fun x => (x.1 - c.arena.base, x.2)

/-- A clear block that is the whole arena or whose enclosing block is not clear. -/
def MaximalClear (c : Client) (order offset : Nat) : Prop :=
  ClearBlock c order offset ∧ (order = maxOrder ∨
    ¬ ClearBlock c (order + 1) (offset / blockSize (order + 1) * blockSize (order + 1)))

def SameLists (s s' : Arena) : Prop :=
  ∀ o ≤ maxOrder, ∀ offset, offset ∈ freeOffsets s o ↔ offset ∈ freeOffsets s' o

def freeAll (fuel : Nat) : Arena → List (Nat × Int) → Option Arena
  | s, [] => some s
  | s, (p, pages) :: rest => (buddyFree fuel s p pages).bind fun s => freeAll fuel s rest

section Canonical
variable {mapped mapped' : Nat} {c c' : Client} {used used' : List Block}

theorem mem_freeOffsets (s : Arena) (set : Set Block) (lists : Lists) (holds : Holds s set lists)
    (o : Nat) (small : o ≤ 8) (offset : Nat) :
    offset ∈ freeOffsets s o ↔ ∃ b ∈ freeSet lists, b.order = o ∧ b.first * 4096 = offset := by
  unfold freeOffsets
  rw [blocksOn_eq holds o small, List.map_map]
  constructor
  · intro listed
    obtain ⟨i, member, same⟩ := List.mem_map.mp listed
    refine ⟨⟨o, i⟩, member, rfl, ?_⟩
    rw [← same, Function.comp_apply, addr_first, Nat.add_sub_cancel_left]
  · rintro ⟨b, isFree, rfl, rfl⟩
    refine List.mem_map.mpr ⟨b.index, isFree, ?_⟩
    rw [Function.comp_apply, addr_first, Nat.add_sub_cancel_left]

theorem parent_offset (b : Block) :
    b.first * 4096 / blockSize (b.order + 1) * blockSize (b.order + 1) = b.parent.first * 4096 := by
  have unit : 0 < 2 ^ b.order * 4096 := Nat.mul_pos (Nat.two_pow_pos _) (by decide)
  have offset : b.first * 4096 = b.index * (2 ^ b.order * 4096) := by rw [Block.first, Nat.mul_assoc]
  have size : blockSize (b.order + 1) = 2 * (2 ^ b.order * 4096) := by
    rw [blockSize, size_eq, size_pages]
    ring
  rw [offset, size, Nat.mul_div_mul_right _ _ unit]
  simp only [Block.first, Block.parent]
  ring

theorem related_maximal (related : Related mapped c used) (o : Nat) (small : o ≤ 8) (offset : Nat) :
    offset ∈ freeOffsets c.arena o ↔ MaximalClear c o offset := by
  obtain ⟨lists, holds⟩ := related.holds
  have maximal : ∀ b : Block, b ∈ freeSet lists ↔ MaximalClear c b.order (b.first * 4096) := by
    intro b
    have parent := clearBlock_iff related b.parent
    rw [free_iff_maximal holds.division, MaximalClear, parent_offset, clearBlock_iff related b,
      ← parent]
    rfl
  rw [mem_freeOffsets c.arena _ lists holds o small]
  constructor
  · rintro ⟨b, isFree, rfl, rfl⟩
    exact (maximal b).mp isFree
  · intro isMaximal
    have shape := aligned_offset o offset isMaximal.1.aligned
    refine ⟨⟨o, offset / blockSize o⟩, (maximal _).mpr ?_, rfl, shape.symm⟩
    rw [← shape]
    exact isMaximal

theorem clearBlock_congr (same : ∀ offset order, (offset, order) ∈ liveOffsets c ↔
    (offset, order) ∈ liveOffsets c') (above : ∀ x ∈ c.live, c.arena.base ≤ x.1)
    (above' : ∀ x ∈ c'.live, c'.arena.base ≤ x.1) (order offset : Nat)
    (clear : ClearBlock c order offset) : ClearBlock c' order offset := by
  refine ⟨clear.aligned, clear.inside, fun x member => ?_⟩
  have listed : (x.1 - c'.arena.base, x.2) ∈ liveOffsets c' := List.mem_map_of_mem member
  obtain ⟨y, member', twin⟩ := List.mem_map.mp ((same _ _).mpr listed)
  obtain ⟨offsets, orders⟩ := Prod.mk.inj twin
  have apart := clear.unused y member'
  have low := above y member'
  have low' := above' x member
  simp only [Disjoint, Ownership.Separate, orders] at apart ⊢
  omega

theorem live_above (related : Related mapped c used) : ∀ x ∈ c.live, c.arena.base ≤ x.1 := by
  rw [related.live, related.base]
  intro x member
  obtain ⟨b, -, rfl⟩ := List.mem_map.mp member
  exact Nat.le_add_right _ _

/-- Arenas with the same live blocks have the same blocks on every list. -/
theorem related_canonical (left : Related mapped c used) (right : Related mapped' c' used')
    (same : ∀ offset order, (offset, order) ∈ liveOffsets c ↔ (offset, order) ∈ liveOffsets c') :
    SameLists c.arena c'.arena := by
  have clear : ∀ order offset, ClearBlock c order offset ↔ ClearBlock c' order offset :=
    fun order offset => ⟨clearBlock_congr same (live_above left) (live_above right) order offset,
      clearBlock_congr (fun o k => (same o k).symm) (live_above right) (live_above left) order offset⟩
  intro o small offset
  rw [related_maximal left o small, related_maximal right o small, MaximalClear, MaximalClear, clear, clear]

theorem ledger_canonical (left : Related mapped c used) (right : Related mapped c' used')
    (same : ∀ b, b ∈ used ↔ b ∈ used') : SameLists c.arena c'.arena := by
  apply related_canonical left right
  intro offset order
  unfold liveOffsets
  rw [left.live, right.live, left.base, right.base]
  simp only [List.mem_map, same]

theorem used_addr_inj (related : Related mapped c used) (b d : Block) (isUsed : b ∈ used)
    (isUsed' : d ∈ used) (same : addr mapped b = addr mapped d) : b = d := by
  obtain ⟨lists, holds⟩ := related.holds
  have starts := addr_same_first same
  exact holds.division.partition.unique b (Or.inr isUsed) d (Or.inr isUsed') _ (covers_first b)
    (starts ▸ covers_first d)

theorem related_freeAll (fuel : Nat) (enough : 256 < fuel) (blocks : List (Nat × Int))
    (distinct : (blocks.map (·.1)).Nodup) (related : Related mapped c used)
    (held : ∀ x ∈ blocks, ∃ order, (x.1, order) ∈ c.live ∧ orderOf x.2 = some order) :
    ∃ after used', freeAll fuel c.arena blocks = some after.arena ∧ Related mapped after used' ∧
      ∀ b, b ∈ used' ↔ b ∈ used ∧ addr mapped b ∉ blocks.map (·.1) := by
  induction blocks generalizing c used with
  | nil => exact ⟨c, used, rfl, related, by simp⟩
  | cons x rest ih =>
      obtain ⟨p, pages⟩ := x
      obtain ⟨fresh, distinct'⟩ := List.nodup_cons.mp distinct
      obtain ⟨order, isLive, rounded⟩ := held (p, pages) List.mem_cons_self
      obtain ⟨b, member, rfl, rfl⟩ := held_block related p order isLive
      obtain ⟨arena, returned⟩ := free_returns related b member fuel enough pages rounded
      have related' := related_free related b member fuel pages arena rounded returned
      have stillHeld : ∀ y ∈ rest, ∃ order, (y.1, order) ∈ c.live.erase (addr mapped b, b.order) ∧
          orderOf y.2 = some order := by
        intro y later
        obtain ⟨order, isLive', rounded'⟩ := held y (List.mem_cons_of_mem _ later)
        have different : (y.1, order) ≠ (addr mapped b, b.order) := by
          intro same
          have twin : y.1 = addr mapped b := (Prod.mk.inj same).1
          have again : y.1 ∈ rest.map (·.1) := List.mem_map_of_mem later
          rw [twin] at again
          exact fresh again
        exact ⟨order, (List.mem_erase_of_ne different).mpr isLive', rounded'⟩
      obtain ⟨after, used', done, related'', left⟩ := ih distinct' related' stillHeld
      refine ⟨after, used', ?_, related'', fun d => ?_⟩
      · rw [freeAll, returned]
        exact done
      · rw [left, related.distinct.mem_erase_iff]
        simp only [List.map_cons, List.mem_cons, not_or]
        constructor
        · rintro ⟨⟨different, isUsed⟩, outside⟩
          exact ⟨isUsed, fun same => different (used_addr_inj related d b isUsed member same), outside⟩
        · rintro ⟨isUsed, different, outside⟩
          exact ⟨⟨fun same => different (by rw [same]), isUsed⟩, outside⟩

theorem freeAll_perm (related : Related mapped c used) (fuel : Nat) (enough : 256 < fuel)
    (left right : List (Nat × Int)) (distinct : (left.map (·.1)).Nodup)
    (held : ∀ x ∈ left, ∃ order, (x.1, order) ∈ c.live ∧ orderOf x.2 = some order)
    (order : left.Perm right) :
    ∃ after after', freeAll fuel c.arena left = some after ∧
      freeAll fuel c.arena right = some after' ∧ SameLists after after' := by
  obtain ⟨after, used', done, related', rest⟩ := related_freeAll fuel enough left distinct related held
  have pointers := order.map (·.1)
  obtain ⟨after', used'', done', related'', rest'⟩ := related_freeAll fuel enough right
    (pointers.nodup_iff.mp distinct) related (fun x member => held x (order.mem_iff.mpr member))
  refine ⟨after.arena, after'.arena, done, done', ledger_canonical related' related'' fun b => ?_⟩
  rw [rest, rest', pointers.mem_iff]

/-- Freeing what `buddy_alloc` has just returned undoes it. -/
theorem free_after_alloc (related : Related mapped c used) (pages pages' : Int) (p : Nat) (arena : Arena)
    (small : pages ≤ 256) (returned : buddyAlloc c.arena pages = some (arena, p)) (granting : p ≠ 0)
    (same : orderOf pages' = orderOf pages) (fuel : Nat) (enough : 256 < fuel) :
    ∃ after, buddyFree fuel arena p pages' = some after ∧ SameLists after c.arena := by
  obtain ⟨order, -, rounded⟩ := orderOf_small pages small
  rcases related_alloc related pages p order arena rounded returned with
    ⟨isNull, -, -⟩ | ⟨b, rfl, rfl, clear, related'⟩
  · exact absurd isNull granting
  · have rounded' : orderOf pages' = some b.order := same.trans rounded
    obtain ⟨after, freed⟩ := free_returns related' b List.mem_cons_self fuel enough pages' rounded'
    have related'' := related_free related' b List.mem_cons_self fuel pages' after rounded' freed
    simp only [List.erase_cons_head] at related''
    exact ⟨after, freed, ledger_canonical related'' related fun _ => Iff.rfl⟩

theorem empty_lists (related : Related mapped c used) (none : c.live = []) (o : Nat) (small : o ≤ 8) :
    freeOffsets c.arena o = if o = 8 then [0] else [] := by
  obtain ⟨lists, holds⟩ := related.holds
  have noUsed : used = [] := List.map_eq_nil_iff.mp (related.live.symm.trans none)
  subst noUsed
  have nothing : usedSet [] = ∅ := by
    ext b
    simp [usedSet]
  have division := holds.division
  rw [nothing] at division
  have isRoot : ∀ i, i ∈ lists o ↔ (⟨o, i⟩ : Block) = root 8 := fun i =>
    Set.ext_iff.mp (division_canonical {root 8} division division_root) ⟨o, i⟩
  simp only [root, Block.mk.injEq] at isRoot
  have distinct := lists_nodup holds.rep o small
  unfold freeOffsets
  rw [blocksOn_eq holds o small]
  by_cases top : o = 8
  · have single : lists o = [0] := by
      apply List.perm_singleton.mp
      rw [List.perm_ext_iff_of_nodup distinct (List.nodup_singleton 0)]
      intro i
      rw [isRoot, List.mem_singleton]
      exact and_iff_right top
    rw [single, if_pos top]
    simp [addr]
  · have empty : lists o = [] :=
      List.eq_nil_iff_forall_not_mem.mpr fun i listed => top ((isRoot i).mp listed).1
    simp [empty, top]

end Canonical

/-- What is on the free lists is a function of the live blocks. -/
theorem lists_canonical (mapped mapped' : Nat) (c c' : Client) (run : Run mapped c)
    (run' : Run mapped' c') :
    ((∀ offset order, (offset, order) ∈ liveOffsets c ↔ (offset, order) ∈ liveOffsets c') →
      SameLists c.arena c'.arena) ∧
    (∀ o ≤ maxOrder, ∀ offset, offset ∈ freeOffsets c.arena o ↔ MaximalClear c o offset) ∧
    (∀ fuel left right, 256 < fuel → (left.map (·.1)).Nodup →
      (∀ x ∈ left, ∃ order, (x.1, order) ∈ c.live ∧ orderOf x.2 = some order) → left.Perm right →
      ∃ after after', freeAll fuel c.arena left = some after ∧
        freeAll fuel c.arena right = some after' ∧ SameLists after after') ∧
    (∀ pages pages' arena p fuel, pages ≤ 256 → buddyAlloc c.arena pages = some (arena, p) → p ≠ 0 →
      orderOf pages' = orderOf pages → 256 < fuel →
      ∃ after, buddyFree fuel arena p pages' = some after ∧ SameLists after c.arena) ∧
    (c.live = [] → ∀ o ≤ maxOrder, freeOffsets c.arena o = if o = maxOrder then [0] else []) := by
  obtain ⟨used, related⟩ := run_related mapped c run
  obtain ⟨used', related'⟩ := run_related mapped' c' run'
  refine ⟨related_canonical related related', related_maximal related, ?_, ?_, empty_lists related⟩
  · intro fuel left right enough distinct held order
    exact freeAll_perm related fuel enough left right distinct held order
  · intro pages pages' arena p fuel small returned granting same enough
    exact free_after_alloc related pages pages' p arena small returned granting same fuel enough

theorem lists_canonical_fresh : ∃ arena after, buddyAlloc fresh.arena 3 = some (arena, 4096) ∧
    buddyFree 257 arena 4096 4 = some after ∧ SameLists after fresh.arena ∧
    freeOffsets fresh.arena 8 = [0] := by
  obtain ⟨arena, returned⟩ := fresh_alloc
  obtain ⟨-, -, -, undone, whole⟩ := lists_canonical 4096 4096 fresh fresh fresh_run fresh_run
  obtain ⟨after, freed, same⟩ := undone 3 4 arena 4096 257 (by decide) returned (by decide) (by decide)
    (by decide)
  exact ⟨arena, after, returned, freed, same, whole rfl 8 (Nat.le_refl _)⟩

end LinuxMemory.Buddy
