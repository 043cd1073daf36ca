import Mathlib.Data.List.Nodup
import Mathlib.Data.Nat.Bitwise
import Mathlib.Order.BooleanAlgebra.Set

/-!
Aligned power-of-two blocks. A block is an order and an index, so that it is
aligned by construction: block `i` of order `k` is the pages `p` with
`p / 2 ^ k = i`. Two blocks are nested or disjoint. A division of the arena into
free and used blocks in which no two free siblings remain is determined by the
used blocks: the free ones are the maximal blocks that no used block meets.
-/

namespace LinuxMemory.AlignedBlocks

structure Block where
  order : Nat
  index : Nat
  deriving DecidableEq, Repr

def Block.Covers (block : Block) (page : Nat) : Prop := page / 2 ^ block.order = block.index

instance (block : Block) (page : Nat) : Decidable (block.Covers page) :=
  inferInstanceAs (Decidable (_ = _))

def Block.Within (block outer : Block) : Prop :=
  block.order ≤ outer.order ∧ block.index / 2 ^ (outer.order - block.order) = outer.index

def Block.first (block : Block) : Nat := block.index * 2 ^ block.order

def Block.parent (block : Block) : Block := ⟨block.order + 1, block.index / 2⟩

def Block.sibling (block : Block) : Block := ⟨block.order, block.index ^^^ 1⟩

def root (height : Nat) : Block := ⟨height, 0⟩

theorem covers_iff (block : Block) (page : Nat) :
    block.Covers page ↔ block.first ≤ page ∧ page < block.first + 2 ^ block.order := by
  unfold Block.Covers Block.first
  have positive : 0 < 2 ^ block.order := Nat.two_pow_pos _
  rw [← Nat.succ_mul]
  constructor
  · intro same
    rw [← same]
    exact ⟨Nat.div_mul_le_self _ _, (Nat.div_lt_iff_lt_mul positive).mp (Nat.lt_succ_self _)⟩
  · rintro ⟨low, high⟩
    have below := (Nat.div_lt_iff_lt_mul positive).mpr high
    have above := (Nat.le_div_iff_mul_le positive).mpr low
    omega

theorem covers_first (block : Block) : block.Covers block.first :=
  Nat.mul_div_cancel _ (Nat.two_pow_pos _)

theorem covers_within (block outer : Block) (inside : block.Within outer) (page : Nat)
    (covered : block.Covers page) : outer.Covers page := by
  obtain ⟨smaller, same⟩ := inside
  unfold Block.Covers at covered ⊢
  rw [← same, ← covered, Nat.div_div_eq_div_mul, ← Nat.pow_add, Nat.add_sub_cancel' smaller]

theorem within_of_common (block outer : Block) (page : Nat) (smaller : block.order ≤ outer.order)
    (covered : block.Covers page) (covered' : outer.Covers page) : block.Within outer := by
  refine ⟨smaller, ?_⟩
  unfold Block.Covers at covered covered'
  rw [← covered, ← covered', Nat.div_div_eq_div_mul, ← Nat.pow_add, Nat.add_sub_cancel' smaller]

theorem within_refl (block : Block) : block.Within block :=
  within_of_common block block _ (Nat.le_refl _) (covers_first block) (covers_first block)

theorem within_trans (block middle outer : Block) (left : block.Within middle)
    (right : middle.Within outer) : block.Within outer :=
  within_of_common block outer _ (Nat.le_trans left.1 right.1) (covers_first block)
    (covers_within _ _ right _ (covers_within _ _ left _ (covers_first block)))

theorem within_same_order (block outer : Block) (inside : block.Within outer)
    (same : block.order = outer.order) : block = outer := by
  obtain ⟨order, index⟩ := block
  obtain ⟨order', index'⟩ := outer
  simp only at same
  subst same
  have indices := inside.2
  simp only [Nat.sub_self, Nat.pow_zero, Nat.div_one] at indices
  rw [indices]

theorem sibling_index (index : Nat) :
    (index % 2 = 0 ∧ index ^^^ 1 = index + 1) ∨ (index % 2 = 1 ∧ index ^^^ 1 = index - 1) := by
  rcases Nat.mod_two_eq_zero_or_one index with even | odd
  · exact Or.inl ⟨even, Nat.xor_one_of_even (Nat.even_iff.mpr even)⟩
  · exact Or.inr ⟨odd, Nat.xor_one_of_odd (Nat.odd_iff.mpr odd)⟩

theorem xor_size (index shift : Nat) :
    (index * 2 ^ shift) ^^^ 2 ^ shift = (index ^^^ 1) * 2 ^ shift := by
  have distrib := @Nat.shiftLeft_xor_distrib shift index 1
  simp only [Nat.shiftLeft_eq, Nat.one_mul] at distrib
  exact distrib.symm

theorem sibling_ne (block : Block) : block.sibling ≠ block := by
  intro same
  have indices := congrArg Block.index same
  simp only [Block.sibling] at indices
  rcases sibling_index block.index with ⟨parity, value⟩ | ⟨parity, value⟩ <;> omega

@[simp] theorem sibling_sibling (block : Block) : block.sibling.sibling = block := by
  simp [Block.sibling]

@[simp] theorem parent_sibling (block : Block) : block.sibling.parent = block.parent := by
  simp only [Block.parent, Block.sibling, Block.mk.injEq, true_and]
  rcases sibling_index block.index with ⟨parity, value⟩ | ⟨parity, value⟩ <;> omega

theorem within_parent (block : Block) : block.Within block.parent := by
  simp [Block.Within, Block.parent]

theorem covers_parent (block : Block) (page : Nat) :
    block.parent.Covers page ↔ block.Covers page ∨ block.sibling.Covers page := by
  simp only [Block.Covers, Block.parent, Block.sibling, Nat.pow_succ, ← Nat.div_div_eq_div_mul]
  rcases sibling_index block.index with ⟨parity, value⟩ | ⟨parity, value⟩ <;> omega

theorem sibling_apart (block : Block) (page : Nat) (covered : block.Covers page) :
    ¬ block.sibling.Covers page := by
  intro other
  have inside := within_of_common block block.sibling page (Nat.le_refl _) covered other
  exact sibling_ne block (within_same_order _ _ inside rfl).symm

theorem parent_within (block outer : Block) (inside : block.Within outer)
    (proper : block.order < outer.order) : block.parent.Within outer :=
  within_of_common _ _ _ proper
    (covers_within _ _ (within_parent block) _ (covers_first block))
    (covers_within _ _ inside _ (covers_first block))

theorem root_covers (height page : Nat) : (root height).Covers page ↔ page < 2 ^ height := by
  rw [covers_iff]
  simp [root, Block.first]

theorem within_root_page (height : Nat) (block : Block) (inside : block.Within (root height))
    (page : Nat) (covered : block.Covers page) : page < 2 ^ height :=
  (root_covers height page).mp (covers_within _ _ inside page covered)

theorem within_root_iff (height : Nat) (block : Block) :
    block.Within (root height) ↔ block.first + 2 ^ block.order ≤ 2 ^ height := by
  have positive := Nat.two_pow_pos block.order
  constructor
  · intro inside
    have last : block.Covers (block.first + 2 ^ block.order - 1) := (covers_iff _ _).mpr (by omega)
    have page := within_root_page height block inside _ last
    omega
  · intro room
    have smaller : block.order ≤ height :=
      (Nat.pow_le_pow_iff_right (by decide)).mp (Nat.le_trans (Nat.le_add_left _ _) room)
    exact within_of_common block (root height) block.first smaller (covers_first block)
      ((root_covers _ _).mpr (by omega))

theorem apart_or_common (left right : Block) :
    (left.first + 2 ^ left.order ≤ right.first ∨ right.first + 2 ^ right.order ≤ left.first) ∨
      ∃ page, left.Covers page ∧ right.Covers page := by
  by_cases apart : left.first + 2 ^ left.order ≤ right.first ∨ right.first + 2 ^ right.order ≤ left.first
  · exact Or.inl apart
  · refine Or.inr ⟨max left.first right.first, ?_⟩
    rw [covers_iff, covers_iff]
    have := Nat.two_pow_pos left.order
    have := Nat.two_pow_pos right.order
    omega

/-- The blocks cover the arena, each page once. -/
structure Partition (height : Nat) (blocks : Set Block) : Prop where
  inside : ∀ block ∈ blocks, block.Within (root height)
  cover : ∀ page < 2 ^ height, ∃ block ∈ blocks, block.Covers page
  unique : ∀ left ∈ blocks, ∀ right ∈ blocks, ∀ page, left.Covers page → right.Covers page →
    left = right

theorem partition_root (height : Nat) : Partition height {root height} := by
  constructor
  · rintro block rfl
    exact within_refl _
  · intro page inside
    exact ⟨_, rfl, (root_covers height page).mpr inside⟩
  · rintro left rfl right rfl page - -
    rfl

theorem partition_within (height : Nat) (blocks : Set Block) (partition : Partition height blocks)
    (left right : Block) (inLeft : left ∈ blocks) (inRight : right ∈ blocks)
    (inside : left.Within right) : left = right :=
  partition.unique _ inLeft _ inRight _ (covers_first left)
    (covers_within _ _ inside _ (covers_first left))

theorem partition_apart (height : Nat) (blocks : Set Block) (partition : Partition height blocks)
    (left right : Block) (inLeft : left ∈ blocks) (inRight : right ∈ blocks) (different : left ≠ right) :
    left.first + 2 ^ left.order ≤ right.first ∨ right.first + 2 ^ right.order ≤ left.first := by
  rcases apart_or_common left right with apart | ⟨page, covered, covered'⟩
  · exact apart
  · exact absurd (partition.unique _ inLeft _ inRight page covered covered') different

def Block.pages (block : Block) : List Nat := List.range' block.first (2 ^ block.order)

theorem mem_pages (block : Block) (page : Nat) : page ∈ block.pages ↔ block.Covers page := by
  rw [covers_iff]
  exact List.mem_range'_1

theorem partition_pages (height : Nat) (blocks : List Block) (distinct : blocks.Nodup)
    (partition : Partition height {block | block ∈ blocks}) :
    (blocks.map fun block => 2 ^ block.order).sum = 2 ^ height := by
  have once : (blocks.flatMap Block.pages).Nodup := by
    refine List.nodup_flatMap.mpr ⟨fun block _ => List.nodup_range', ?_⟩
    apply distinct.pairwise_of_forall_ne
    intro left inLeft right inRight different page first second
    exact different (partition.unique left inLeft right inRight page
      ((mem_pages left page).mp first) ((mem_pages right page).mp second))
  have same : (blocks.flatMap Block.pages).Perm (List.range (2 ^ height)) := by
    rw [List.perm_ext_iff_of_nodup once List.nodup_range]
    intro page
    rw [List.mem_flatMap, List.mem_range]
    constructor
    · rintro ⟨block, member, listed⟩
      exact within_root_page height block (partition.inside block member) page ((mem_pages block page).mp listed)
    · intro below
      obtain ⟨block, member, covered⟩ := partition.cover page below
      exact ⟨block, member, (mem_pages block page).mpr covered⟩
  have lengths := same.length_eq
  rw [List.length_flatMap, List.length_range] at lengths
  rw [← lengths]
  congr 1
  exact List.map_congr_left fun block _ => List.length_range'.symm

section Halves
variable {height : Nat} {blocks : Set Block} {block : Block}

theorem partition_others (partition : Partition height (insert block blocks))
    (fresh : block ∉ blocks) (other : Block) (member : other ∈ blocks) (page : Nat)
    (covered : other.Covers page) : ¬ block.Covers page := by
  intro covered'
  have same := partition.unique _ (Set.mem_insert_of_mem _ member) _ (Set.mem_insert _ _) page
    covered covered'
  exact fresh (same ▸ member)

theorem partition_split (partition : Partition height (insert block.parent blocks))
    (fresh : block.parent ∉ blocks) :
    Partition height (insert block (insert block.sibling blocks)) := by
  have parentInside := partition.inside _ (Set.mem_insert _ _)
  have others := partition_others partition fresh
  constructor
  · rintro other (rfl | rfl | member)
    · exact within_trans _ _ _ (within_parent _) parentInside
    · exact within_trans _ _ _ (within_parent _) (by rwa [parent_sibling])
    · exact partition.inside _ (Set.mem_insert_of_mem _ member)
  · intro page inside
    obtain ⟨other, rfl | member, covered⟩ := partition.cover page inside
    · rcases (covers_parent block page).mp covered with here | there
      · exact ⟨block, Set.mem_insert _ _, here⟩
      · exact ⟨block.sibling, Set.mem_insert_of_mem _ (Set.mem_insert _ _), there⟩
    · exact ⟨other, Set.mem_insert_of_mem _ (Set.mem_insert_of_mem _ member), covered⟩
  -- a page of a half is a page of the parent, which no other block covers
  · have half : ∀ page, block.Covers page ∨ block.sibling.Covers page → block.parent.Covers page :=
      fun page => (covers_parent block page).mpr
    rintro left (rfl | rfl | inLeft) right (rfl | rfl | inRight) page covered covered'
    · rfl
    · exact absurd covered' (sibling_apart _ page covered)
    · exact absurd (half page (Or.inl covered)) (others _ inRight page covered')
    · exact absurd covered (sibling_apart _ page covered')
    · rfl
    · exact absurd (half page (Or.inr covered)) (others _ inRight page covered')
    · exact absurd (half page (Or.inl covered')) (others _ inLeft page covered)
    · exact absurd (half page (Or.inr covered')) (others _ inLeft page covered)
    · exact partition.unique _ (Set.mem_insert_of_mem _ inLeft) _ (Set.mem_insert_of_mem _ inRight)
        page covered covered'

theorem siblings_below (partition : Partition height blocks) (member : block ∈ blocks)
    (other : block.sibling ∈ blocks) : block.order < height := by
  have inside := partition.inside _ member
  have inside' := partition.inside _ other
  apply Nat.lt_of_le_of_ne inside.1
  intro top
  have isRoot := within_same_order _ _ inside top
  have isRoot' := within_same_order _ _ inside' top
  exact sibling_ne block (isRoot'.trans isRoot.symm)

theorem partition_merge (partition : Partition height (insert block (insert block.sibling blocks)))
    (fresh : block ∉ blocks) (fresh' : block.sibling ∉ blocks) :
    Partition height (insert block.parent blocks) := by
  have here : block ∈ insert block (insert block.sibling blocks) := Set.mem_insert _ _
  have there : block.sibling ∈ insert block (insert block.sibling blocks) :=
    Set.mem_insert_of_mem _ (Set.mem_insert _ _)
  have keep : ∀ other ∈ blocks, other ∈ insert block (insert block.sibling blocks) :=
    fun _ member => Set.mem_insert_of_mem _ (Set.mem_insert_of_mem _ member)
  have below := siblings_below partition here there
  have others : ∀ other ∈ blocks, ∀ page, other.Covers page → ¬ block.parent.Covers page := by
    intro other member page covered covered'
    rcases (covers_parent block page).mp covered' with half | half
    · exact fresh (partition.unique _ (keep other member) _ here page covered half ▸ member)
    · exact fresh' (partition.unique _ (keep other member) _ there page covered half ▸ member)
  constructor
  · rintro other (rfl | member)
    · exact parent_within _ _ (partition.inside _ here) below
    · exact partition.inside _ (keep other member)
  · intro page inside
    obtain ⟨other, rfl | rfl | member, covered⟩ := partition.cover page inside
    · exact ⟨_, Set.mem_insert _ _, (covers_parent _ page).mpr (Or.inl covered)⟩
    · exact ⟨_, Set.mem_insert _ _, (covers_parent block page).mpr (Or.inr covered)⟩
    · exact ⟨other, Set.mem_insert_of_mem _ member, covered⟩
  · rintro left (rfl | inLeft) right (rfl | inRight) page covered covered'
    · rfl
    · exact absurd covered (others _ inRight page covered')
    · exact absurd covered' (others _ inLeft page covered)
    · exact partition.unique _ (keep left inLeft) _ (keep right inRight) page covered covered'

end Halves

/-! A buddy system: the arena divided between the free and the used blocks. -/

def Merged (free : Set Block) : Prop := ∀ block ∈ free, block.sibling ∉ free

structure Division (height : Nat) (free used : Set Block) : Prop where
  partition : Partition height (free ∪ used)
  exclusive : ∀ block ∈ free, block ∉ used
  merged : Merged free

/-- No used block meets the block, which lies in the arena. -/
def Clear (height : Nat) (used : Set Block) (block : Block) : Prop :=
  block.Within (root height) ∧
    ∀ page, block.Covers page → ∀ other ∈ used, ¬ other.Covers page

theorem clear_within (height : Nat) (used : Set Block) (block outer : Block)
    (clear : Clear height used outer) (inside : block.Within outer) : Clear height used block :=
  ⟨within_trans _ _ _ inside clear.1,
    fun page covered => clear.2 page (covers_within _ _ inside page covered)⟩

section Division
variable {height : Nat} {free used : Set Block} {block : Block}

theorem division_root : Division height {root height} ∅ := by
  refine ⟨by simpa using partition_root height, by simp, ?_⟩
  rintro block rfl other
  exact sibling_ne _ other

theorem free_clear (division : Division height free used) (member : block ∈ free) :
    Clear height used block := by
  refine ⟨division.partition.inside _ (Or.inl member), fun page covered other isUsed covered' => ?_⟩
  have same := division.partition.unique _ (Or.inl member) _ (Or.inr isUsed) page covered covered'
  exact division.exclusive _ member (same ▸ isUsed)

theorem used_clear (division : Division height free (insert block used)) (fresh : block ∉ used) :
    Clear height used block := by
  have member : block ∈ free ∪ insert block used := Or.inr (Set.mem_insert _ _)
  refine ⟨division.partition.inside _ member, fun page covered other isUsed covered' => ?_⟩
  have same := division.partition.unique _ member _ (Or.inr (Set.mem_insert_of_mem _ isUsed)) page
    covered covered'
  exact fresh (same ▸ isUsed)

/-- Induction on the order: both halves lie in free blocks by induction, and
these cannot be the two halves themselves. -/
theorem clear_inside_free (division : Division height free used) (order : Nat) :
    ∀ block : Block, block.order = order → Clear height used block →
      ∃ outer ∈ free, block.Within outer := by
  induction order with
  | zero =>
      intro block size clear
      -- the block is one page, and the partition covers it
      have page := within_root_page height block clear.1 _ (covers_first block)
      obtain ⟨outer, member, covered⟩ := division.partition.cover _ page
      rcases member with isFree | isUsed
      · exact ⟨outer, isFree, within_of_common _ _ _ (by omega) (covers_first block) covered⟩
      · exact absurd covered (clear.2 _ (covers_first block) outer isUsed)
  | succ order ih =>
      intro block size clear
      obtain ⟨half, isHalf, small⟩ : ∃ half : Block, half.parent = block ∧ half.order = order := by
        refine ⟨⟨order, 2 * block.index⟩, ?_, rfl⟩
        simp only [Block.parent, ← size, Nat.mul_div_cancel_left _ (Nat.zero_lt_two)]
      subst isHalf
      obtain ⟨outer, isFree, inside⟩ := ih half small
        (clear_within _ _ _ _ clear (within_parent half))
      obtain ⟨outer', isFree', inside'⟩ := ih half.sibling small
        (clear_within _ _ _ _ clear (by simpa using within_parent half.sibling))
      by_cases proper : half.order < outer.order
      · exact ⟨outer, isFree, parent_within _ _ inside proper⟩
      by_cases proper' : half.sibling.order < outer'.order
      · exact ⟨outer', isFree', by simpa using parent_within _ _ inside' proper'⟩
      -- neither half lies in a larger free block, so both are free themselves
      have same := within_same_order _ _ inside (Nat.le_antisymm inside.1 (Nat.le_of_not_lt proper))
      have same' := within_same_order _ _ inside' (Nat.le_antisymm inside'.1 (Nat.le_of_not_lt proper'))
      exact absurd (same' ▸ isFree') (division.merged _ (same ▸ isFree))

/-- The free blocks are the maximal clear ones. -/
theorem free_iff_maximal (division : Division height free used) (block : Block) :
    block ∈ free ↔ Clear height used block ∧
      (block.order = height ∨ ¬ Clear height used block.parent) := by
  constructor
  · intro member
    refine ⟨free_clear division member, ?_⟩
    by_contra larger
    simp only [not_or, not_not] at larger
    -- a clear parent would lie in a free block that also contains `block`
    obtain ⟨outer, isFree, inside⟩ := clear_inside_free division _ block.parent rfl larger.2
    have same := partition_within height _ division.partition _ _ (Or.inl member) (Or.inl isFree)
      (within_trans _ _ _ (within_parent block) inside)
    have growth := inside.1
    rw [← same] at growth
    exact absurd growth (Nat.not_succ_le_self _)
  · rintro ⟨clear, maximal⟩
    obtain ⟨outer, isFree, inside⟩ := clear_inside_free division _ block rfl clear
    have clear' := free_clear division isFree
    rcases Nat.eq_or_lt_of_le inside.1 with same | proper
    · exact within_same_order _ _ inside same ▸ isFree
    · exfalso
      rcases maximal with top | notClear
      · have bounded := clear'.1.1
        simp only [root] at bounded
        omega
      · exact notClear (clear_within _ _ _ _ clear' (parent_within _ _ inside proper))

/-- The used blocks determine the free ones. -/
theorem division_canonical (free' : Set Block) (left : Division height free used)
    (right : Division height free' used) : free = free' := by
  ext block
  rw [free_iff_maximal left, free_iff_maximal right]

/-! The four moves. -/

theorem division_take (division : Division height free used) (member : block ∈ free) :
    Division height (free \ {block}) (insert block used) ∧ block ∉ used := by
  -- the block only changes sides, so the partition is the same one
  have same : free \ {block} ∪ insert block used = free ∪ used := by
    rw [Set.union_insert, ← Set.insert_union, Set.insert_sdiff_singleton, Set.insert_eq_of_mem member]
  refine ⟨⟨same ▸ division.partition, ?_, ?_⟩, division.exclusive _ member⟩
  · rintro other ⟨isFree, different⟩ (rfl | isUsed)
    · exact different rfl
    · exact division.exclusive _ isFree isUsed
  · rintro other ⟨isFree, -⟩ ⟨isFree', -⟩
    exact division.merged _ isFree isFree'

theorem division_split (division : Division height free (insert block.parent used))
    (fresh : block.parent ∉ used) :
    Division height (insert block.sibling free) (insert block used) ∧ block ∉ used ∧
      block.sibling ∉ free := by
  have notFree : block.parent ∉ free :=
    fun isFree => division.exclusive _ isFree (Set.mem_insert _ _)
  have whole := division.partition
  rw [Set.union_insert] at whole
  have absent : block.parent ∉ free ∪ used := by
    rintro (isFree | isUsed)
    · exact notFree isFree
    · exact fresh isUsed
  have halves := partition_split whole absent
  -- both halves lie in the parent, which meets no other block
  have apart := partition_others whole absent
  have own : block ∉ free ∪ used := fun member =>
    apart _ member _ (covers_first block) (covers_within _ _ (within_parent block) _ (covers_first block))
  have own' : block.sibling ∉ free ∪ used := fun member =>
    apart _ member _ (covers_first block.sibling)
      ((covers_parent block _).mpr (Or.inr (covers_first block.sibling)))
  refine ⟨⟨?_, ?_, ?_⟩, fun isUsed => own (Or.inr isUsed), fun isFree => own' (Or.inl isFree)⟩
  · rw [Set.insert_union, Set.union_insert, Set.insert_comm]
    exact halves
  · rintro other (rfl | isFree) (same | isUsed)
    · exact sibling_ne block same
    · exact own' (Or.inr isUsed)
    · exact own (Or.inl (same ▸ isFree))
    · exact division.exclusive _ isFree (Set.mem_insert_of_mem _ isUsed)
  · rintro other (rfl | isFree) (same | isFree')
    · exact sibling_ne _ same
    · rw [sibling_sibling] at isFree'
      exact own (Or.inl isFree')
    · have twin : other = block := by rw [← sibling_sibling other, same, sibling_sibling]
      exact own (Or.inl (twin ▸ isFree))
    · exact division.merged _ isFree isFree'

theorem division_merge (division : Division height free (insert block used)) (fresh : block ∉ used)
    (other : block.sibling ∈ free) :
    Division height (free \ {block.sibling}) (insert block.parent used) ∧ block.parent ∉ used := by
  have notUsed : block.sibling ∉ used := fun isUsed =>
    division.exclusive _ other (Set.mem_insert_of_mem _ isUsed)
  have notFree : block ∉ free := fun isFree => division.exclusive _ isFree (Set.mem_insert _ _)
  have whole := division.partition
  have shape : free ∪ insert block used =
      insert block (insert block.sibling (free \ {block.sibling} ∪ used)) := by
    rw [← Set.insert_union, Set.insert_sdiff_singleton, Set.insert_eq_of_mem other, Set.union_insert]
  rw [shape] at whole
  have merged := partition_merge whole
    (by rintro (⟨isFree, -⟩ | isUsed); exacts [notFree isFree, fresh isUsed])
    (by rintro (⟨-, different⟩ | isUsed); exacts [different rfl, notUsed isUsed])
  -- the parent cannot be there already, since it meets the block
  have own : block.parent ∉ free ∪ used := by
    intro member
    have inWhole : block.parent ∈ free ∪ insert block used :=
      member.imp id (Set.mem_insert_of_mem _)
    have same := partition_within height _ division.partition _ _ (Or.inr (Set.mem_insert _ _)) inWhole
      (within_parent block)
    have sizes := congrArg Block.order same
    simp only [Block.parent] at sizes
    omega
  refine ⟨⟨?_, ?_, ?_⟩, fun isUsed => own (Or.inr isUsed)⟩
  · rw [Set.union_insert]
    exact merged
  · rintro left ⟨isFree, -⟩ (same | isUsed)
    · exact own (Or.inl (same ▸ isFree))
    · exact division.exclusive _ isFree (Set.mem_insert_of_mem _ isUsed)
  · rintro left ⟨isFree, -⟩ ⟨isFree', -⟩
    exact division.merged _ isFree isFree'

theorem division_release (division : Division height free (insert block used)) (fresh : block ∉ used)
    (alone : block.sibling ∉ free) : Division height (insert block free) used := by
  have notFree : block ∉ free := fun isFree => division.exclusive _ isFree (Set.mem_insert _ _)
  have same : insert block free ∪ used = free ∪ insert block used := by
    rw [Set.insert_union, Set.union_insert]
  refine ⟨same ▸ division.partition, ?_, ?_⟩
  · rintro other (rfl | isFree) isUsed
    · exact fresh isUsed
    · exact division.exclusive _ isFree (Set.mem_insert_of_mem _ isUsed)
  · rintro other (rfl | isFree) (twin | isFree')
    · exact sibling_ne _ twin
    · exact alone isFree'
    · have same : other = block.sibling := by rw [← twin, sibling_sibling]
      exact alone (same ▸ isFree)
    · exact division.merged _ isFree isFree'

end Division

end LinuxMemory.AlignedBlocks
