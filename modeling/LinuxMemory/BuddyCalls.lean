import LinuxMemory.BuddyLayout
import Mathlib.Algebra.Order.Ring.Int
import Mathlib.Data.List.Perm.Subperm

/-!
The loops of `buddy_alloc` and `buddy_free` as moves between free and used
blocks: a pop takes a block, each round of the split gives one half back, each
round of the merge takes the sibling in.
-/

namespace LinuxMemory.Buddy

open ByteMemory LinkedList AlignedBlocks

/-! The order of a request. -/

def LeastOrder (pages : Int) (order : Nat) : Prop :=
  pages ≤ 2 ^ order ∧ ∀ smaller < order, 2 ^ smaller < pages

theorem orderFrom_least (pages : Int) (fuel start order : Nat)
    (returned : orderFrom pages fuel (2 ^ start) start = some order)
    (sofar : ∀ smaller < start, 2 ^ smaller < pages) : LeastOrder pages order := by
  induction fuel generalizing start with
  | zero => simp [orderFrom] at returned
  | succ fuel ih =>
      rw [orderFrom] at returned
      by_cases small : (2 ^ start : Int) < pages
      · rw [if_pos small] at returned
        by_cases fits : (2 ^ start : Int) * 2 < 2 ^ 31
        · rw [if_pos fits, ← pow_succ] at returned
          apply ih (start + 1) returned
          intro smaller below
          rcases Nat.eq_or_lt_of_le (Nat.le_of_lt_succ below) with rfl | less
          · exact small
          · exact sofar smaller less
        · rw [if_neg fits] at returned
          cases returned
      · rw [if_neg small] at returned
        cases returned
        exact ⟨Int.not_lt.mp small, sofar⟩

theorem orderFrom_returns (pages : Int) (rounds fuel start : Nat) (enough : rounds < fuel)
    (bounded : pages ≤ 2 ^ (start + rounds)) (small : start + rounds ≤ 30) :
    ∃ order, orderFrom pages fuel (2 ^ start) start = some order ∧ order ≤ start + rounds := by
  induction rounds generalizing fuel start with
  | zero =>
      obtain ⟨less, rfl⟩ : ∃ less, fuel = less + 1 := ⟨fuel - 1, by omega⟩
      rw [Nat.add_zero] at bounded
      exact ⟨start, by rw [orderFrom, if_neg (Int.not_lt.mpr bounded)], Nat.le_refl _⟩
  | succ rounds ih =>
      obtain ⟨less, rfl⟩ : ∃ less, fuel = less + 1 := ⟨fuel - 1, by omega⟩
      rw [orderFrom]
      by_cases more : (2 ^ start : Int) < pages
      · have fits : (2 ^ start : Int) * 2 < 2 ^ 31 := by
          rw [← pow_succ]
          exact pow_lt_pow_right₀ (by decide) (by omega)
        rw [if_pos more, if_pos fits, ← pow_succ]
        have shape : start + (rounds + 1) = start + 1 + rounds := by omega
        rw [shape] at bounded ⊢
        exact ih less (start + 1) (by omega) bounded (by omega)
      · exact ⟨start, by rw [if_neg more], by omega⟩

/-- Beyond that `sz` reaches `2 ^ 30` below `pages`, and the next shift overflows. -/
theorem orderFrom_overflows (pages : Int) (large : 2 ^ 30 < pages) (fuel start : Nat)
    (small : start ≤ 30) : orderFrom pages fuel (2 ^ start) start = none := by
  induction fuel generalizing start with
  | zero => rfl
  | succ fuel ih =>
      have bounded : (2 ^ start : Int) ≤ 2 ^ 30 := pow_le_pow_right₀ (by decide) small
      rw [orderFrom, if_pos (Int.lt_of_le_of_lt bounded large)]
      by_cases last : start = 30
      · subst last
        exact if_neg (by decide)
      · have fits : (2 ^ start : Int) * 2 < 2 ^ 31 := by
          rw [← pow_succ]
          exact pow_lt_pow_right₀ (by decide) (by omega)
        rw [if_pos fits, ← pow_succ]
        exact ih (start + 1) (by omega)

theorem orderOf_least (pages : Int) (order : Nat) (rounded : orderOf pages = some order) :
    LeastOrder pages order :=
  orderFrom_least pages 32 0 order rounded (by simp)

theorem orderOf_small (pages : Int) (small : pages ≤ 256) :
    ∃ order ≤ 8, orderOf pages = some order := by
  obtain ⟨order, rounded, bounded⟩ := orderFrom_returns pages 8 32 0 (by decide) small (by decide)
  exact ⟨order, by simpa using bounded, rounded⟩

/-! `fl_remove`. -/

def lastSlot (p : Slot) : List Nat → Slot
  | [] => p
  | a :: rest => lastSlot (.link a) rest

theorem lastSlot_append (p : Slot) (front : List Nat) (a : Nat) :
    lastSlot p (front ++ [a]) = .link a := by
  induction front generalizing p with
  | nil => rfl
  | cons first rest ih => exact ih _

section Remove
variable {s s' : Arena} {lists : Lists}

theorem flRemoveFrom_outcome (s : Arena) (target fuel : Nat) (p : Slot) (nodes : List Nat)
    (links : Linked 0 (next s.memory) (readSlot s p) nodes) (valid : target ≠ 0)
    (result : Arena × Bool) (returned : flRemoveFrom s target fuel p = some result) :
    (target ∉ nodes ∧ result = (s, false)) ∨
    ∃ front rest, nodes = front ++ target :: rest ∧
      result = (writeSlot s (lastSlot p front) (next s.memory target), true) := by
  induction fuel generalizing p nodes with
  | zero => simp [flRemoveFrom] at returned
  | succ fuel ih =>
      rw [flRemoveFrom] at returned
      cases nodes with
      | nil =>
          have done : readSlot s p = 0 := links
          simp only [done, ↓reduceIte, Option.some.injEq] at returned
          exact Or.inl ⟨List.not_mem_nil, returned.symm⟩
      | cons a rest =>
          obtain ⟨start, notNull, tail⟩ := links
          simp only [start, notNull, ↓reduceIte] at returned
          by_cases found : a = target
          · subst found
            rw [if_pos rfl] at returned
            exact Or.inr ⟨[], rest, rfl, (Option.some.inj returned).symm⟩
          · rw [if_neg found] at returned
            rcases ih (.link a) rest tail returned with ⟨absent, same⟩ | ⟨front, others, rfl, same⟩
            · exact Or.inl ⟨by simp [absent, Ne.symm found], same⟩
            · exact Or.inr ⟨a :: front, others, rfl, same⟩

theorem flRemoveFrom_returns (s : Arena) (target fuel : Nat) (p : Slot) (nodes : List Nat)
    (links : Linked 0 (next s.memory) (readSlot s p) nodes) (enough : nodes.length < fuel) :
    ∃ result, flRemoveFrom s target fuel p = some result := by
  induction nodes generalizing fuel p with
  | nil =>
      obtain ⟨less, rfl⟩ : ∃ less, fuel = less + 1 := ⟨fuel - 1, by simp at enough; omega⟩
      have done : readSlot s p = 0 := links
      exact ⟨(s, false), by simp [flRemoveFrom, done]⟩
  | cons a rest ih =>
      obtain ⟨less, rfl⟩ : ∃ less, fuel = less + 1 := ⟨fuel - 1, by simp at enough; omega⟩
      obtain ⟨start, notNull, tail⟩ := links
      rw [flRemoveFrom]
      simp only [start, notNull, ↓reduceIte]
      by_cases found : a = target
      · exact ⟨_, if_pos found⟩
      · rw [if_neg found]
        exact ih less (.link a) tail (by simpa using enough)

theorem writeSlot_base (s : Arena) (slot : Slot) (b : Nat) : (writeSlot s slot b).base = s.base := by
  cases slot with
  | head => rfl
  | link => rfl

theorem writeLink_memory (s : Arena) (a b : Nat) :
    (writeSlot s (.link a) b).memory = storeWord s.memory a b := rfl

theorem writeLink_fl (s : Arena) (a b : Nat) : (writeSlot s (.link a) b).fl = s.fl := rfl

theorem rep_unlink (rep : Rep s lists) (used : Set Block)
    (division : Division 8 (freeSet lists) used) (o i : Nat) (small : o ≤ 8)
    (front rest : List Nat) (shape : lists o = front ++ i :: rest) :
    Rep (writeSlot s (lastSlot (.head o) (front.map fun j => addr s.base ⟨o, j⟩))
      (next s.memory (addr s.base ⟨o, i⟩))) (put lists o (front ++ rest)) := by
  rcases List.eq_nil_or_concat front with rfl | ⟨before, j, rfl⟩
  · exact rep_setHead rep o i rest small shape
  · rw [List.concat_eq_append] at shape ⊢
    rw [List.map_append, List.map_singleton, lastSlot_append]
    have listed : (⟨o, j⟩ : Block) ∈ freeSet lists := by simp [freeSet, shape]
    have bounded : next s.memory (addr s.base ⟨o, i⟩) < 2 ^ 64 := loadWord_lt _ _
    have page : addr s.base ⟨o, j⟩ % 4096 = 0 := addr_page rep.based.aligned
    -- the write to the `next` of `⟨o, j⟩` is seen by no other listed block
    have stays : ∀ o' k, k ∈ lists o' → (⟨o', k⟩ : Block) ≠ ⟨o, j⟩ →
        next (storeWord s.memory (addr s.base ⟨o, j⟩) (next s.memory (addr s.base ⟨o, i⟩)))
          (addr s.base ⟨o', k⟩) = next s.memory (addr s.base ⟨o', k⟩) := by
      intro o' k member different
      rw [next_store _ _ _ _ (addr_page rep.based.aligned) page bounded, if_neg]
      exact fun same => different (free_addr_inj used division s.base _ _ member listed same)
    refine ⟨by rw [writeSlot_base]; exact rep.based, fun o' within => ?_⟩
    rw [writeSlot_base, writeLink_memory, writeLink_fl]
    by_cases same : o' = o
    · subst same
      have links := rep.links o' within
      have distinct := lists_nodup rep o' within
      rw [shape] at links distinct
      rw [put_same]
      simp only [List.append_assoc, List.singleton_append, List.map_append, List.map_cons] at links ⊢
      apply linked_unlink _ _ _ _ _ links
      -- the predecessor now points past the block, and the others keep their links
      · rw [next_store _ _ _ _ page page bounded, if_pos rfl]
      · intro a member
        rw [← List.map_append] at member
        obtain ⟨k, inside, rfl⟩ := List.mem_map.mp member
        apply stays o' k
        · rw [shape]
          simp only [List.mem_append, List.mem_cons] at inside ⊢
          rcases inside with early | late
          · exact Or.inl (Or.inl early)
          · exact Or.inr (Or.inr late)
        · intro twin
          simp only [Block.mk.injEq, true_and] at twin
          subst twin
          simp only [List.append_assoc, List.singleton_append, List.nodup_append, List.nodup_cons,
            List.mem_cons, not_or] at distinct
          rcases List.mem_append.mp inside with early | late
          · exact distinct.2.2 k early k (Or.inl rfl) rfl
          · exact distinct.2.1.1.2 late
    · rw [put_other _ _ _ _ same]
      apply linked_congr _ _ (rep.links o' within)
      intro a member
      obtain ⟨k, inside, rfl⟩ := List.mem_map.mp member
      exact stays o' k inside (fun twin => same (congrArg Block.order twin))

theorem stable_unlink (used : Set Block) (division : Division 8 (freeSet lists) used) (o : Nat)
    (front : List Nat) (listed : ∀ j ∈ front, j ∈ lists o) (value : Nat) :
    Stable used s (writeSlot s (lastSlot (.head o) (front.map fun j => addr s.base ⟨o, j⟩)) value) := by
  rcases List.eq_nil_or_concat front with rfl | ⟨before, j, rfl⟩
  · exact ⟨rfl, fun _ _ _ _ => rfl⟩
  · have isFree : (⟨o, j⟩ : Block) ∈ freeSet lists := listed j (by simp)
    rw [List.concat_eq_append, List.map_append, List.map_singleton, lastSlot_append]
    have outside : ∀ byte, byte < addr s.base ⟨o, j⟩ ∨ addr s.base ⟨o, j⟩ + 4096 ≤ byte →
        (writeSlot s (.link (addr s.base ⟨o, j⟩)) value).memory byte = s.memory byte := by
      intro byte apart
      rw [writeLink_memory]
      apply store_outside
      omega
    exact stable_first _ used division.partition Set.subset_union_right ⟨o, j⟩ (Or.inl isFree)
      (division.exclusive _ isFree) s _ (writeSlot_base _ _ _) outside

theorem rep_flRemove (rep : Rep s lists) (used : Set Block)
    (division : Division 8 (freeSet lists) used) (b : Block) (small : b.order ≤ 8) (fuel : Nat)
    (found : Bool) (returned : flRemove fuel s b.order (addr s.base b) = some (s', found)) :
    (b ∉ freeSet lists ∧ s' = s ∧ found = false) ∨
    (b ∈ freeSet lists ∧ found = true ∧ Stable used s s' ∧
      Rep s' (put lists b.order ((lists b.order).erase b.index))) := by
  have valid : addr s.base b ≠ 0 := by
    have positive := rep.based.valid
    unfold addr
    omega
  have distinct := lists_nodup rep b.order small
  rcases flRemoveFrom_outcome s _ fuel (.head b.order) _ (rep.links b.order small) valid _ returned with
    ⟨absent, same⟩ | ⟨front, rest, shape, same⟩
  · obtain ⟨rfl, rfl⟩ := Prod.mk.inj same
    refine Or.inl ⟨fun isFree => absent ?_, rfl, rfl⟩
    exact List.mem_map.mpr ⟨b.index, isFree, rfl⟩
  · obtain ⟨front', others, split, rfl, tail⟩ := List.map_eq_append_iff.mp shape
    obtain ⟨i, rest', rfl, start, rfl⟩ := List.map_eq_cons_iff.mp tail
    obtain ⟨rfl, rfl⟩ := Prod.mk.inj same
    -- the scan stopped at the address of `b`, which determines the block
    have twin : (⟨b.order, i⟩ : Block) = b := handle_injective s.base (Prod.ext start rfl)
    have index : i = b.index := congrArg Block.index twin
    subst index
    have fresh : b.index ∉ front' := by
      rw [split, List.nodup_append] at distinct
      exact fun early => distinct.2.2 _ early _ List.mem_cons_self rfl
    have isFree : b ∈ freeSet lists := by simp [freeSet, split]
    refine Or.inr ⟨isFree, rfl, ?_, ?_⟩
    · exact stable_unlink used division b.order front' (fun j early => by simp [split, early]) _
    · rw [split, List.erase_append_right _ fresh, List.erase_cons_head]
      exact rep_unlink rep used division b.order b.index small front' rest' split

end Remove

/-! The calls as they act on the lists. -/

/-- The split loop on the block `⟨o, i⟩`: the lists after it and the index of the
block that is handed out. -/
def splitLists (order : Nat) : Nat → Nat → Lists → Lists × Nat
  | 0, i, lists => (lists, i)
  | o + 1, i, lists =>
      if o + 1 > order then splitLists order o (2 * i) (put lists o ((2 * i + 1) :: lists o))
      else (lists, i)

def allocLists (order : Nat) (lists : Lists) : Option (Lists × Block) :=
  let o := searchUp (fun o => (lists o).length) (maxOrder + 1 - order) order
  if o > maxOrder then none
  else
    let split := splitLists order o ((lists o).headD 0) (put lists o (lists o).tail)
    some (split.1, ⟨order, split.2⟩)

def mergeLists : Nat → Lists → Block → Lists × Block
  | 0, lists, b => (lists, b)
  | rounds + 1, lists, b =>
      if b.sibling.index ∈ lists b.order then
        mergeLists rounds (put lists b.order ((lists b.order).erase b.sibling.index)) b.parent
      else (lists, b)

def freeLists (lists : Lists) (b : Block) : Lists :=
  let merged := mergeLists (maxOrder - b.order) lists b
  put merged.1 merged.2.order (merged.2.index :: merged.1 merged.2.order)

/-! `buddy_alloc`. -/

structure Holds (s : Arena) (used : Set Block) (lists : Lists) : Prop where
  rep : Rep s lists
  division : Division 8 (freeSet lists) used

section Alloc
variable {s : Arena} {lists : Lists} {used : Set Block}

theorem free_small (holds : Holds s used lists) (b : Block) (isFree : b ∈ freeSet lists) :
    b.order ≤ 8 :=
  (holds.division.partition.inside b (Or.inl isFree)).1

theorem head_null_iff (holds : Holds s used lists) (o : Nat) (small : o ≤ 8) :
    s.fl o = 0 ↔ lists o = [] := by
  rw [linked_null_iff _ _ (holds.rep.links o small), List.map_eq_nil_iff]

theorem searchUp_spec (fl : Nat → Nat) (rounds o : Nat) :
    o ≤ searchUp fl rounds o ∧ searchUp fl rounds o ≤ o + rounds ∧
      (∀ k, o ≤ k → k < searchUp fl rounds o → fl k = 0) ∧
      (searchUp fl rounds o < o + rounds → fl (searchUp fl rounds o) ≠ 0) := by
  induction rounds generalizing o with
  | zero => exact ⟨Nat.le_refl _, Nat.le_refl _, fun k low high => absurd high (Nat.not_lt.mpr low),
      fun less => absurd less (Nat.lt_irrefl _)⟩
  | succ rounds ih =>
      rw [searchUp]
      by_cases empty : fl o = 0
      · rw [if_pos empty]
        obtain ⟨low, high, skipped, stopped⟩ := ih (o + 1)
        refine ⟨by omega, by omega, fun k above below => ?_, fun less => stopped (by omega)⟩
        rcases Nat.eq_or_lt_of_le above with rfl | later
        · exact empty
        · exact skipped k later below
      · rw [if_neg empty]
        exact ⟨Nat.le_refl _, by omega, fun k low high => absurd high (Nat.not_lt.mpr low),
          fun _ => empty⟩

theorem searchUp_congr (fl fl' : Nat → Nat) (rounds o : Nat)
    (same : ∀ k, o ≤ k → k < o + rounds → (fl k = 0 ↔ fl' k = 0)) :
    searchUp fl rounds o = searchUp fl' rounds o := by
  induction rounds generalizing o with
  | zero => rfl
  | succ rounds ih =>
      have here := same o (Nat.le_refl _) (by omega)
      rw [searchUp, searchUp, ih (o + 1) fun k low high => same k (by omega) (by omega)]
      by_cases empty : fl o = 0
      · rw [if_pos empty, if_pos (here.mp empty)]
      · rw [if_neg empty, if_neg (fun isNull => empty (here.mpr isNull))]

theorem holds_flPop (holds : Holds s used lists) (o : Nat) (small : o ≤ 8) (nonempty : s.fl o ≠ 0) :
    ∃ i rest, lists o = i :: rest ∧ (flPop s o).2 = addr s.base ⟨o, i⟩ ∧
      Stable used s (flPop s o).1 ∧ (⟨o, i⟩ : Block) ∉ used ∧
      Holds (flPop s o).1 (insert ⟨o, i⟩ used) (put lists o rest) := by
  obtain ⟨i, rest, shape⟩ : ∃ i rest, lists o = i :: rest := by
    apply List.exists_cons_of_ne_nil
    exact fun empty => nonempty ((head_null_iff holds o small).mpr empty)
  have links := holds.rep.links o small
  rw [shape] at links
  have start : s.fl o = addr s.base ⟨o, i⟩ := links.1
  have isFree : (⟨o, i⟩ : Block) ∈ freeSet lists := by simp [freeSet, shape]
  have distinct : (lists (Block.mk o i).order).Nodup := lists_nodup holds.rep o small
  have taken := division_take holds.division isFree
  have popped : (flPop s o).1 = setHead s o (next s.memory (addr s.base ⟨o, i⟩)) := by
    simp only [flPop, start, if_pos (start ▸ nonempty)]
  rw [← freeSet_erase lists ⟨o, i⟩ distinct] at taken
  simp only [shape, List.erase_cons_head] at taken
  refine ⟨i, rest, shape, start, ?_, taken.2, ?_, taken.1⟩
  · rw [popped]
    exact ⟨rfl, fun _ _ _ _ => rfl⟩
  · rw [popped]
    exact rep_setHead holds.rep o i rest small shape

theorem fresh_address (holds : Holds s used lists) (base : Nat) (b : Block) (isUsed : b ∈ used) :
    ∀ d ∈ freeSet lists, addr base d ≠ addr base b := by
  intro d isFree same
  have starts := addr_same_first same
  have twin := holds.division.partition.unique d (Or.inl isFree) b (Or.inr isUsed) d.first
    (covers_first d) (starts ▸ covers_first b)
  exact holds.division.exclusive d isFree (twin ▸ isUsed)

theorem stable_own {b : Block} (holds : Holds s (insert b used) lists) (fresh : b ∉ used) (s' : Arena)
    (base : s'.base = s.base) (outside : ∀ byte, byte < addr s.base b ∨ addr s.base b + 4096 ≤ byte →
      s'.memory byte = s.memory byte) : Stable used s s' := by
  have part : used ⊆ freeSet lists ∪ insert b used :=
    fun d isUsed => Or.inr (Set.mem_insert_of_mem _ isUsed)
  exact stable_first _ used holds.division.partition part b (Or.inr (Set.mem_insert _ _)) fresh s s' base
    outside

theorem holds_split (o i : Nat) (holds : Holds s (insert ⟨o + 1, i⟩ used) lists) (small : o + 1 ≤ 8)
    (fresh : (⟨o + 1, i⟩ : Block) ∉ used) :
    Holds (flPush s o (Word.add (addr s.base ⟨o + 1, i⟩) ((1 <<< o) <<< pgLog2)))
      (insert ⟨o, 2 * i⟩ used) (put lists o ((2 * i + 1) :: lists o)) ∧
    (⟨o, 2 * i⟩ : Block) ∉ used ∧
    Stable used s (flPush s o (Word.add (addr s.base ⟨o + 1, i⟩) ((1 <<< o) <<< pgLog2))) := by
  have division := holds.division
  rw [← parent_half] at division fresh
  obtain ⟨halved, fresh', notFree⟩ := division_split division fresh
  rw [sibling_half] at halved notFree
  have inside := halved.partition.inside ⟨o, 2 * i + 1⟩ (Or.inl (Set.mem_insert _ _))
  -- the pushed address is that of the odd half
  have address : Word.add (addr s.base ⟨o + 1, i⟩) ((1 <<< o) <<< pgLog2) =
      addr s.base ⟨o, 2 * i + 1⟩ := by
    have fits := addr_lt s.base inside
    have room := holds.rep.based.below
    have shape : addr s.base ⟨o, 2 * i⟩ + 2 ^ (o + 12) = addr s.base ⟨o, 2 * i + 1⟩ := by
      simp only [addr]
      ring
    rw [size_eq, addr_half, Word.add_exact _ _ (by omega), shape]
  rw [address]
  refine ⟨⟨?_, ?_⟩, fresh', ?_⟩
  · apply rep_flPush holds.rep _ holds.division ⟨o, 2 * i + 1⟩ (Nat.le_of_succ_le small)
    intro d isFree same
    have starts := addr_same_first same
    have twin := halved.partition.unique d (Or.inl (Set.mem_insert_of_mem _ isFree)) _
      (Or.inl (Set.mem_insert _ _)) d.first (covers_first d) (starts ▸ covers_first _)
    exact notFree (twin ▸ isFree)
  · rw [freeSet_cons lists ⟨o, 2 * i + 1⟩]
    exact halved
  · have part : used ⊆ insert ⟨o, 2 * i + 1⟩ (freeSet lists) ∪ insert ⟨o, 2 * i⟩ used :=
      fun d isUsed => Or.inr (Set.mem_insert_of_mem _ isUsed)
    have apart : (⟨o, 2 * i + 1⟩ : Block) ∉ used := fun isUsed =>
      halved.exclusive _ (Set.mem_insert _ _) (Set.mem_insert_of_mem _ isUsed)
    have outside := flPush_outside s o (addr s.base ⟨o, 2 * i + 1⟩)
    exact stable_first _ used halved.partition part ⟨o, 2 * i + 1⟩ (Or.inl (Set.mem_insert _ _)) apart
      s _ (flPush_base _ _ _) outside

/-- The split loop ends with a block of the order asked for, at the address of
the block it started from. -/
theorem holds_splitDown (order o : Nat) (s : Arena) (lists : Lists) (i : Nat)
    (holds : Holds s (insert ⟨o, i⟩ used) lists) (fresh : (⟨o, i⟩ : Block) ∉ used)
    (small : o ≤ 8) (reached : order ≤ o) :
    ∃ j lists', splitLists order o i lists = (lists', j) ∧
      addr s.base ⟨order, j⟩ = addr s.base ⟨o, i⟩ ∧
      Stable used s (splitDown order (addr s.base ⟨o, i⟩) o s) ∧
      Holds (splitDown order (addr s.base ⟨o, i⟩) o s) (insert ⟨order, j⟩ used) lists' ∧
      (⟨order, j⟩ : Block) ∉ used := by
  induction o generalizing s lists i with
  | zero =>
      obtain rfl : order = 0 := Nat.le_zero.mp reached
      exact ⟨i, lists, rfl, rfl, stable_refl _ _, holds, fresh⟩
  | succ o ih =>
      rw [splitDown, splitLists]
      by_cases more : o + 1 > order
      · rw [if_pos more, if_pos more]
        obtain ⟨holds', fresh', pushed⟩ := holds_split o i holds small fresh
        obtain ⟨j, lists', shape, address, stable, done⟩ :=
          ih _ _ (2 * i) holds' fresh' (by omega) (by omega)
        rw [flPush_base] at address stable done
        rw [addr_half] at stable done pushed ⊢
        exact ⟨j, lists', shape, address, stable_trans _ _ _ _ pushed stable, done⟩
      · obtain rfl : order = o + 1 := by omega
        rw [if_neg more, if_neg more]
        exact ⟨i, lists, rfl, rfl, stable_refl _ _, holds, fresh⟩

theorem holds_setOrder (b : Block) (o : Nat) (holds : Holds s (insert b used) lists) (fresh : b ∉ used) :
    Holds (setOrder s (addr s.base b) o) (insert b used) lists ∧
      Stable used s (setOrder s (addr s.base b) o) := by
  refine ⟨⟨rep_setOrder holds.rep _ o (addr_page holds.rep.based.aligned), holds.division⟩, ?_⟩
  exact stable_own holds fresh _ rfl (setOrder_outside s (addr s.base b) o)

/-- `buddy_alloc` fails where no list from the order on has a block; otherwise
it hands out a block of that order and keeps the rest divided. -/
theorem holds_allocOrder (holds : Holds s used lists) (order : Nat) :
    (allocOrder s order = (s, 0) ∧ (∀ b ∈ freeSet lists, b.order < order) ∧
      allocLists order lists = none) ∨
    ∃ b lists', b.order = order ∧ b ∉ used ∧ (allocOrder s order).2 = addr s.base b ∧
      Stable used s (allocOrder s order).1 ∧
      Holds (allocOrder s order).1 (insert b used) lists' ∧
      allocLists order lists = some (lists', b) := by
  -- the search runs on the heads, the model of it on the lengths
  have searches : searchUp (fun o => (lists o).length) (maxOrder + 1 - order) order =
      searchUp s.fl (maxOrder + 1 - order) order := by
    apply searchUp_congr
    intro k low high
    rw [List.length_eq_zero_iff, head_null_iff holds k (by unfold maxOrder at high; omega)]
  unfold allocOrder allocLists
  rw [searches]
  obtain ⟨low, high, skipped, stopped⟩ := searchUp_spec s.fl (maxOrder + 1 - order) order
  generalize searchUp s.fl (maxOrder + 1 - order) order = o at low high skipped stopped
  dsimp only
  by_cases large : order > maxOrder
  · rw [if_pos large, if_pos (by omega)]
    refine Or.inl ⟨rfl, fun b isFree => ?_, rfl⟩
    exact Nat.lt_of_le_of_lt (free_small holds b isFree) large
  rw [if_neg large]
  by_cases none : o > maxOrder
  · rw [if_pos none, if_pos none]
    refine Or.inl ⟨rfl, fun b isFree => ?_, rfl⟩
    by_contra above
    have small := free_small holds b isFree
    have empty := skipped b.order (Nat.le_of_not_lt above) (Nat.lt_of_le_of_lt small none)
    -- the search passed the list that `b` is on
    rw [head_null_iff holds b.order small] at empty
    have listed : b.index ∈ lists b.order := isFree
    rw [empty] at listed
    exact absurd listed List.not_mem_nil
  · rw [if_neg none, if_neg none]
    have small : o ≤ 8 := Nat.le_of_not_lt none
    have nonempty := stopped (by unfold maxOrder at large none ⊢; omega)
    obtain ⟨i, rest, shape, address, popped, fresh, holds'⟩ := holds_flPop holds o small nonempty
    obtain ⟨j, lists', pieces, same, split, holds'', fresh'⟩ :=
      holds_splitDown order o (flPop s o).1 _ i holds' fresh small low
    obtain ⟨marked, written⟩ := holds_setOrder ⟨order, j⟩ order holds'' fresh'
    have stable := stable_trans _ _ _ _ popped split
    rw [split.base, same, popped.base] at marked written
    rw [popped.base] at same stable
    rw [address, shape]
    simp only [List.headD_cons, List.tail_cons, pieces]
    exact Or.inr ⟨⟨order, j⟩, lists', rfl, fresh', same.symm, stable_trans _ _ _ _ stable written,
      marked, rfl⟩

end Alloc

/-! `buddy_free`. -/

section Free
variable {s s' : Arena} {lists : Lists} {used : Set Block} {b : Block}

theorem lists_length (holds : Holds s used lists) (o : Nat) (small : o ≤ 8) :
    (lists o).length ≤ 256 := by
  -- every index on the list is that of a block with a first page in the arena
  have inside : lists o ⊆ List.range 256 := by
    intro i listed
    have within := holds.division.partition.inside ⟨o, i⟩ (Or.inl listed)
    have page := within_root_page 8 _ within _ (covers_first _)
    have positive := Nat.two_pow_pos o
    have below : i ≤ i * 2 ^ o := Nat.le_mul_of_pos_right i positive
    simp only [Block.first] at page
    exact List.mem_range.mpr (Nat.lt_of_le_of_lt below page)
  simpa using ((lists_nodup holds.rep o small).subperm inside).length_le

theorem holds_flRemove (holds : Holds s (insert b used) lists) (fresh : b ∉ used)
    (below : b.order < 8) (fuel : Nat) (found : Bool)
    (removed : flRemove fuel s b.order (buddyOf s (addr s.base b) b.order) = some (s', found)) :
    (found = false ∧ s' = s ∧ b.sibling ∉ freeSet lists) ∨
    (found = true ∧ Stable used s s' ∧ b.parent ∉ used ∧ b.sibling ∈ freeSet lists ∧
      Holds s' (insert b.parent used)
        (put lists b.order ((lists b.order).erase b.sibling.index))) := by
  have inside := holds.division.partition.inside b (Or.inr (Set.mem_insert _ _))
  rw [buddyOf_eq s lists holds.rep inside below] at removed
  rcases rep_flRemove holds.rep _ holds.division b.sibling (Nat.le_of_lt below) fuel found removed with
    ⟨absent, rfl, rfl⟩ | ⟨isFree, rfl, stable, rep⟩
  · exact Or.inl ⟨rfl, rfl, absent⟩
  · have distinct := lists_nodup holds.rep b.sibling.order (Nat.le_of_lt below)
    have merged := division_merge holds.division fresh isFree
    rw [← freeSet_erase lists b.sibling distinct] at merged
    have others : Stable used s s' := ⟨stable.base, fun d isUsed address within =>
      stable.bytes d (Set.mem_insert_of_mem _ isUsed) address within⟩
    exact Or.inr ⟨rfl, others, merged.2, isFree, rep, merged.1⟩

theorem mergeUp_succ (fuel rounds : Nat) (s : Arena) (p order : Nat) :
    mergeUp fuel (rounds + 1) s p order =
      (flRemove fuel s order (buddyOf s p order)).bind fun removed =>
        if removed.2 then mergeUp fuel rounds removed.1
          (if buddyOf s p order < p then buddyOf s p order else p) (order + 1)
        else some (removed.1, p, order) := rfl

theorem merged_address (holds : Holds s (insert b used) lists) (below : b.order < 8) :
    (if buddyOf s (addr s.base b) b.order < addr s.base b then buddyOf s (addr s.base b) b.order
      else addr s.base b) = addr s.base b.parent := by
  have inside := holds.division.partition.inside b (Or.inr (Set.mem_insert _ _))
  rw [buddyOf_eq s lists holds.rep inside below]
  exact addr_parent s.base b

/-- The merge loop ends with a block whose sibling is not free. -/
theorem holds_mergeUp (fuel rounds : Nat) (s : Arena) (lists : Lists) (b : Block)
    (level : b.order + rounds = 8) (holds : Holds s (insert b used) lists) (fresh : b ∉ used)
    (p order : Nat) (returned : mergeUp fuel rounds s (addr s.base b) b.order = some (s', p, order)) :
    ∃ d lists', mergeLists rounds lists b = (lists', d) ∧ addr s'.base d = p ∧ d.order = order ∧
      Stable used s s' ∧ d ∉ used ∧ d.sibling ∉ freeSet lists' ∧
      Holds s' (insert d used) lists' := by
  induction rounds generalizing s lists b with
  | zero =>
      obtain ⟨rfl, rfl, rfl⟩ : s = s' ∧ addr s.base b = p ∧ b.order = order := by
        simpa [mergeUp] using returned
      -- at the top order the sibling would lie outside the arena
      refine ⟨b, lists, rfl, rfl, rfl, stable_refl _ _, fresh, fun twin => ?_, holds⟩
      have below := siblings_below holds.division.partition (Or.inr (Set.mem_insert b used)) (Or.inl twin)
      omega
  | succ rounds ih =>
      have below : b.order < 8 := by omega
      rw [mergeUp_succ] at returned
      obtain ⟨⟨middle, found⟩, removed, continued⟩ := Option.bind_eq_some_iff.mp returned
      rw [merged_address holds below] at continued
      rw [mergeLists]
      rcases holds_flRemove holds fresh below fuel found removed with
        ⟨rfl, rfl, alone⟩ | ⟨rfl, stable, fresh', twin, holds'⟩
      · obtain ⟨rfl, rfl, rfl⟩ : middle = s' ∧ addr middle.base b = p ∧ b.order = order := by
          simpa using continued
        exact ⟨b, lists, if_neg alone, rfl, rfl, stable_refl _ _, fresh, alone, holds⟩
      · have listed : b.sibling.index ∈ lists b.order := twin
        simp only [↓reduceIte] at continued
        rw [← stable.base] at continued
        rw [if_pos listed]
        obtain ⟨d, lists', merged, isAddress, isOrder, stable', outcome⟩ := ih middle _ b.parent
          (by simp only [Block.parent]; omega) holds' fresh' continued
        exact ⟨d, lists', merged, isAddress, isOrder, stable_trans _ _ _ _ stable stable', outcome⟩

theorem mergeUp_returns (fuel rounds : Nat) (s : Arena) (lists : Lists) (b : Block)
    (level : b.order + rounds = 8) (holds : Holds s (insert b used) lists) (fresh : b ∉ used)
    (enough : 256 < fuel) : ∃ result, mergeUp fuel rounds s (addr s.base b) b.order = some result := by
  induction rounds generalizing s lists b with
  | zero => exact ⟨_, rfl⟩
  | succ rounds ih =>
      have below : b.order < 8 := by omega
      have short := lists_length holds b.order (by omega)
      -- the list has at most 256 nodes, so the scan reaches its end
      obtain ⟨⟨middle, found⟩, removed⟩ := flRemoveFrom_returns s
        (buddyOf s (addr s.base b) b.order) fuel (.head b.order) _
        (holds.rep.links b.order (by omega)) (by rw [List.length_map]; omega)
      have removed' : flRemove fuel s b.order (buddyOf s (addr s.base b) b.order) =
          some (middle, found) := removed
      rw [mergeUp_succ, removed', merged_address holds below]
      rcases holds_flRemove holds fresh below fuel found removed' with
        ⟨rfl, rfl, alone⟩ | ⟨rfl, stable, fresh', -, holds'⟩
      · exact ⟨_, rfl⟩
      · simp only [Option.bind_some, ↓reduceIte]
        rw [← stable.base]
        exact ih middle _ b.parent (by simp only [Block.parent]; omega) holds' fresh'

theorem holds_freeOrder (holds : Holds s (insert b used) lists) (fresh : b ∉ used) (fuel : Nat)
    (returned : freeOrder fuel s (addr s.base b) b.order = some s') :
    Stable used s s' ∧ Holds s' used (freeLists lists b) := by
  have small : b.order ≤ maxOrder :=
    (holds.division.partition.inside b (Or.inr (Set.mem_insert _ _))).1
  unfold freeOrder at returned
  rw [if_neg (Nat.not_lt.mpr small)] at returned
  obtain ⟨⟨middle, p, order⟩, merged, rfl⟩ := Option.map_eq_some_iff.mp returned
  obtain ⟨d, lists', shape, rfl, rfl, stable, fresh', alone, holds'⟩ :=
    holds_mergeUp fuel _ s lists b (Nat.add_sub_cancel' small) holds fresh p order merged
  have result : freeLists lists b = put lists' d.order (d.index :: lists' d.order) := by
    have shape' : mergeLists (maxOrder - b.order) lists b = (lists', d) := shape
    simp only [freeLists, shape']
  have pushed := stable_own holds' fresh' (flPush middle d.order (addr middle.base d))
    (flPush_base _ _ _) (flPush_outside middle d.order (addr middle.base d))
  rw [result]
  refine ⟨stable_trans _ _ _ _ stable pushed, ?_, ?_⟩
  · apply rep_flPush holds'.rep _ holds'.division d
    · exact (holds'.division.partition.inside d (Or.inr (Set.mem_insert _ _))).1
    · exact fresh_address holds' middle.base d (Set.mem_insert _ _)
  · rw [freeSet_cons]
    exact division_release holds'.division fresh' alone

theorem freeOrder_returns (holds : Holds s (insert b used) lists) (fresh : b ∉ used) (fuel : Nat)
    (enough : 256 < fuel) : ∃ after, freeOrder fuel s (addr s.base b) b.order = some after := by
  have small : b.order ≤ maxOrder :=
    (holds.division.partition.inside b (Or.inr (Set.mem_insert _ _))).1
  obtain ⟨result, merged⟩ := mergeUp_returns fuel _ s lists b (Nat.add_sub_cancel' small) holds fresh enough
  unfold freeOrder
  rw [if_neg (Nat.not_lt.mpr small)]
  exact ⟨_, congrArg (Option.map _) merged⟩

theorem holds_write (holds : Holds s used lists) (isUsed : b ∈ used) (address : Nat) (value : UInt8)
    (inside : Inside (addr s.base b) b.order address) :
    Holds { s with memory := poke s.memory address value } used lists := by
  have covered := inside_covers s.base address b inside
  refine ⟨⟨holds.rep.based, fun o small => ?_⟩, holds.division⟩
  apply linked_congr _ _ (holds.rep.links o small)
  intro a listed
  obtain ⟨i, isFree, rfl⟩ := List.mem_map.mp listed
  apply load_poke
  by_contra hit
  have page : (address - s.base) / 4096 = (Block.mk o i).first := by
    rw [addr_first] at hit
    omega
  have onList : (⟨o, i⟩ : Block) ∈ freeSet lists := isFree
  have clear := free_clear holds.division onList
  exact clear.2 _ (covers_first _) b isUsed (page ▸ covered)

end Free

end LinuxMemory.Buddy
