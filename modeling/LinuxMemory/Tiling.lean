import Mathlib.Data.List.Chain
import Mathlib.Data.List.Nodup

/-!
Lists of free and used segments that tile an interval without gap or overlap.
Where no two neighbours are both free, the used segments determine the whole
list, and every run of unused bytes lies in one free segment.
-/

namespace LinuxMemory.Tiling

structure Segment where
  addr : Nat
  size : Nat
  free : Bool
  deriving DecidableEq, Repr

def Segment.Apart (left right : Segment) : Prop :=
  left.addr + left.size ≤ right.addr ∨ right.addr + right.size ≤ left.addr

def Tiles : Nat → List Segment → Nat → Prop
  | low, [], high => low = high
  | low, segment :: rest, high =>
      segment.addr = low ∧ 0 < segment.size ∧ Tiles (low + segment.size) rest high

def Coalesced (segments : List Segment) : Prop :=
  segments.IsChain (fun left right => left.free = true → right.free = false)

theorem tiles_append (low high : Nat) (left right : List Segment) :
    Tiles low (left ++ right) high ↔ ∃ middle, Tiles low left middle ∧ Tiles middle right high := by
  induction left generalizing low with
  | nil => simp [Tiles]
  | cons segment rest ih => simp [Tiles, ih, and_assoc]

theorem tiles_le (low high : Nat) (segments : List Segment) (tiles : Tiles low segments high) :
    low ≤ high := by
  induction segments generalizing low with
  | nil => exact Nat.le_of_eq tiles
  | cons segment rest ih => have := ih _ tiles.2.2; omega

theorem tiles_bounds (low high : Nat) (segments : List Segment) (tiles : Tiles low segments high)
    (segment : Segment) (member : segment ∈ segments) :
    low ≤ segment.addr ∧ 0 < segment.size ∧ segment.addr + segment.size ≤ high := by
  induction segments generalizing low with
  | nil => simp at member
  | cons first rest ih =>
      obtain ⟨start, positive, tail⟩ := tiles
      rcases List.mem_cons.mp member with rfl | later
      · have := tiles_le _ high rest tail; omega
      · have := ih _ tail later; omega

theorem tiles_replace (low high : Nat) (front middle middle' rest : List Segment)
    (tiles : Tiles low (front ++ middle ++ rest) high)
    (same : ∀ first last, Tiles first middle last → Tiles first middle' last) :
    Tiles low (front ++ middle' ++ rest) high := by
  rw [List.append_assoc] at tiles ⊢
  obtain ⟨first, before, others⟩ := (tiles_append _ _ _ _).mp tiles
  obtain ⟨last, inside, after⟩ := (tiles_append _ _ _ _).mp others
  exact (tiles_append _ _ _ _).mpr ⟨first, before, (tiles_append _ _ _ _).mpr ⟨last, same _ _ inside, after⟩⟩

theorem tiles_ordered (low high : Nat) (segments : List Segment) (tiles : Tiles low segments high) :
    segments.Pairwise (fun left right => left.addr + left.size ≤ right.addr) := by
  induction segments generalizing low with
  | nil => exact List.Pairwise.nil
  | cons first rest ih =>
      obtain ⟨start, -, tail⟩ := tiles
      refine List.pairwise_cons.mpr ⟨fun other member => ?_, ih _ tail⟩
      have := tiles_bounds _ high rest tail other member
      omega

theorem tiles_apart (low high : Nat) (segments : List Segment) (tiles : Tiles low segments high)
    (left right : Segment) (inLeft : left ∈ segments) (inRight : right ∈ segments)
    (different : left ≠ right) : left.Apart right := by
  have apart : segments.Pairwise Segment.Apart := (tiles_ordered low high segments tiles).imp Or.inl
  have symmetric : Std.Symm Segment.Apart := ⟨fun _ _ => Or.symm⟩
  exact apart.forall inLeft inRight different

theorem tiles_addr_inj (low high : Nat) (segments : List Segment) (tiles : Tiles low segments high)
    (left right : Segment) (inLeft : left ∈ segments) (inRight : right ∈ segments)
    (same : left.addr = right.addr) : left = right := by
  by_contra different
  have apart := tiles_apart low high segments tiles left right inLeft inRight different
  unfold Segment.Apart at apart
  have := (tiles_bounds low high segments tiles left inLeft).2.1
  have := (tiles_bounds low high segments tiles right inRight).2.1
  omega

theorem tiles_nodup (low high : Nat) (segments : List Segment) (tiles : Tiles low segments high) :
    (segments.map (·.addr)).Nodup := by
  apply List.pairwise_map.mpr
  refine (tiles_ordered low high segments tiles).imp_of_mem (fun inLeft _ ordered same => ?_)
  have := (tiles_bounds low high segments tiles _ inLeft).2.1
  omega

theorem tiles_other_addr (low high : Nat) (front rest : List Segment) (segment other : Segment)
    (tiles : Tiles low (front ++ segment :: rest) high) (inside : other ∈ front ++ rest) :
    other.addr ≠ segment.addr := by
  have distinct := tiles_nodup low high _ tiles
  rw [List.map_append, List.map_cons, List.nodup_middle, ← List.map_append] at distinct
  intro same
  exact (List.nodup_cons.mp distinct).1 (same ▸ List.mem_map_of_mem inside)

theorem tiles_split_unique (low high : Nat) (front front' rest rest' : List Segment)
    (segment segment' : Segment) (tiles : Tiles low (front ++ segment :: rest) high)
    (shape : front ++ segment :: rest = front' ++ segment' :: rest')
    (same : segment.addr = segment'.addr) :
    front = front' ∧ segment = segment' ∧ rest = rest' := by
  have inside : segment' ∈ front ++ segment :: rest := by simp [shape]
  obtain rfl := tiles_addr_inj low high _ tiles segment segment' (by simp) inside same
  have absent : segment ∉ front' ++ rest' := fun again =>
    tiles_other_addr low high front' rest' segment segment (shape ▸ tiles) again rfl
  have before : segment ∉ front' := fun early => absent (List.mem_append_left _ early)
  have behind : segment ∉ rest' := fun late => absent (List.mem_append_right _ late)
  obtain ⟨sameFront, -, sameRest⟩ := (List.append_cons_inj_of_notMem before behind).mp shape.symm
  exact ⟨sameFront.symm, rfl, sameRest.symm⟩

theorem tiles_aligned (unit low high : Nat) (segments : List Segment)
    (tiles : Tiles low segments high) (start : low % unit = 0)
    (sized : ∀ segment ∈ segments, segment.size % unit = 0) :
    ∀ segment ∈ segments, segment.addr % unit = 0 := by
  induction segments generalizing low with
  | nil => simp
  | cons first rest ih =>
      obtain ⟨begins, -, tail⟩ := tiles
      have next : (low + first.size) % unit = 0 := by
        rw [Nat.add_mod, start, sized first List.mem_cons_self]; simp
      intro segment member
      rcases List.mem_cons.mp member with rfl | later
      · rw [begins]; exact start
      · exact ih _ tail next (fun other inside => sized other (List.mem_cons_of_mem _ inside)) segment later

theorem tiles_adjacent (low high : Nat) (front rest : List Segment) (left right : Segment)
    (tiles : Tiles low (front ++ left :: right :: rest) high) :
    right.addr = left.addr + left.size := by
  obtain ⟨middle, -, inside⟩ := (tiles_append _ _ _ _).mp tiles
  obtain ⟨start, -, next, -⟩ := inside
  omega

theorem tiles_last (low high : Nat) (front : List Segment) (last : Segment)
    (tiles : Tiles low (front ++ [last]) high) : last.addr + last.size = high := by
  obtain ⟨middle, -, start, -, done⟩ := (tiles_append _ _ _ _).mp tiles
  simp only [Tiles] at done
  omega

theorem tiles_first (low high : Nat) (rest : List Segment) (first : Segment)
    (tiles : Tiles low (first :: rest) high) : first.addr = low := tiles.1

theorem coalesced_tail (first : Segment) (rest : List Segment)
    (coalesced : Coalesced (first :: rest)) : Coalesced rest :=
  (List.isChain_cons.mp coalesced).2

theorem coalesced_around (front rest : List Segment) (segment : Segment) :
    Coalesced (front ++ segment :: rest) ↔ Coalesced front ∧ Coalesced rest ∧
      (∀ last ∈ front.getLast?, last.free = true → segment.free = false) ∧
      (∀ next ∈ rest.head?, segment.free = true → next.free = false) := by
  unfold Coalesced
  rw [List.isChain_append, List.isChain_cons]
  simp only [List.head?_cons, Option.mem_some_iff, forall_eq']
  tauto

theorem coalesced_next_used (low high : Nat) (first : Segment) (rest : List Segment)
    (tiles : Tiles low (first :: rest) high) (coalesced : Coalesced (first :: rest))
    (free : first.free = true) :
    low + first.size = high ∨ ∃ next ∈ rest, next.free = false ∧ next.addr = low + first.size := by
  obtain ⟨-, -, tail⟩ := tiles
  cases rest with
  | nil => exact Or.inl tail
  | cons next others =>
      exact Or.inr ⟨next, List.mem_cons_self, (List.isChain_cons_cons.mp coalesced).1 free, tail.1⟩

theorem free_size_le (low high : Nat) (first other : Segment) (rest others : List Segment)
    (tiles : Tiles low (first :: rest) high) (coalesced : Coalesced (first :: rest))
    (tilesOther : Tiles low (other :: others) high) (free : first.free = true)
    (used : ∀ segment ∈ first :: rest, segment.free = false → segment ∈ other :: others)
    (otherFree : other.free = true) : other.size ≤ first.size := by
  have bound := tiles_le _ _ _ tilesOther.2.2
  rcases coalesced_next_used low high first rest tiles coalesced free with last | ⟨next, member, isUsed, start⟩
  · omega
  · -- the used segment that ends `first` also stands in the other tiling
    have there := used next (List.mem_cons_of_mem _ member) isUsed
    have positive := (tiles_bounds _ _ _ tiles next (List.mem_cons_of_mem _ member)).2.1
    have different : next ≠ other := fun same => by simp [same, otherFree] at isUsed
    have apart := tiles_apart _ _ _ tilesOther next other there List.mem_cons_self different
    have := tilesOther.1
    have := tiles.2.1
    unfold Segment.Apart at apart
    omega

theorem first_eq (low high : Nat) (first other : Segment) (rest others : List Segment)
    (tiles : Tiles low (first :: rest) high) (tilesOther : Tiles low (other :: others) high)
    (coalesced : Coalesced (first :: rest)) (coalescedOther : Coalesced (other :: others))
    (used : ∀ segment : Segment, segment.free = false →
      (segment ∈ first :: rest ↔ segment ∈ other :: others)) : first = other := by
  cases freeFirst : first.free with
  | false =>
      have there := (used first freeFirst).mp List.mem_cons_self
      exact tiles_addr_inj _ _ _ tilesOther first other there List.mem_cons_self
        (tiles.1.trans tilesOther.1.symm)
  | true =>
      cases freeOther : other.free with
      | false =>
          have here := (used other freeOther).mpr List.mem_cons_self
          exact tiles_addr_inj _ _ _ tiles first other List.mem_cons_self here
            (tiles.1.trans tilesOther.1.symm)
      | true =>
          have down := free_size_le low high first other rest others tiles coalesced tilesOther freeFirst
            (fun segment member isUsed => (used segment isUsed).mp member) freeOther
          have up := free_size_le low high other first others rest tilesOther coalescedOther tiles freeOther
            (fun segment member isUsed => (used segment isUsed).mpr member) freeFirst
          have sameAddr := tiles.1.trans tilesOther.1.symm
          cases first
          cases other
          simp_all
          omega

/-- Two coalesced tilings of one interval with the same used segments are equal. -/
theorem tiling_canonical (low high : Nat) (left right : List Segment)
    (tilesLeft : Tiles low left high) (tilesRight : Tiles low right high)
    (coalescedLeft : Coalesced left) (coalescedRight : Coalesced right)
    (used : ∀ segment : Segment, segment.free = false → (segment ∈ left ↔ segment ∈ right)) :
    left = right := by
  induction left generalizing low right with
  | nil =>
      cases right with
      | nil => rfl
      | cons other others =>
          have := tiles_le _ _ _ tilesRight.2.2
          have := tilesRight.2.1
          simp only [Tiles] at tilesLeft
          omega
  | cons first rest ih =>
      cases right with
      | nil =>
          have := tiles_le _ _ _ tilesLeft.2.2
          have := tilesLeft.2.1
          simp only [Tiles] at tilesRight
          omega
      | cons other others =>
          -- equal first segments can be stripped, since neither comes again
          have same := first_eq low high first other rest others tilesLeft tilesRight
            coalescedLeft coalescedRight used
          subst same
          have freshLeft : first ∉ rest := fun again => by
            have := tiles_bounds _ _ _ tilesLeft.2.2 first again
            have := tilesLeft.1
            omega
          have freshRight : first ∉ others := fun again => by
            have := tiles_bounds _ _ _ tilesRight.2.2 first again
            have := tilesRight.1
            omega
          rw [ih _ others tilesLeft.2.2 tilesRight.2.2 (coalesced_tail _ _ coalescedLeft)
            (coalesced_tail _ _ coalescedRight) (fun segment isUsed => ?_)]
          by_cases head : segment = first
          · subst head
            exact iff_of_false freshLeft freshRight
          · simpa [head] using used segment isUsed

/-- A run of addresses that meets no used segment lies in one free segment. -/
theorem free_run_inside (low high start count : Nat) (segments : List Segment)
    (tiles : Tiles low segments high) (coalesced : Coalesced segments) (positive : 0 < count)
    (lower : low ≤ start) (upper : start + count ≤ high)
    (unused : ∀ segment ∈ segments, segment.free = false →
      start + count ≤ segment.addr ∨ segment.addr + segment.size ≤ start) :
    ∃ segment ∈ segments, segment.free = true ∧
      segment.addr ≤ start ∧ start + count ≤ segment.addr + segment.size := by
  induction segments generalizing low with
  | nil => simp only [Tiles] at tiles; omega
  | cons first rest ih =>
      have begins := tiles.1
      by_cases here : start < low + first.size
      · -- what follows `first` is used, so the run ends inside `first`
        have free : first.free = true := by
          by_contra notFree
          have := unused first List.mem_cons_self (by simpa using notFree)
          omega
        refine ⟨first, List.mem_cons_self, free, by omega, ?_⟩
        rcases coalesced_next_used low high first rest tiles coalesced free with
          last | ⟨next, member, isUsed, at_end⟩
        · omega
        · have := unused next (List.mem_cons_of_mem _ member) isUsed
          have := (tiles_bounds _ _ _ tiles next (List.mem_cons_of_mem _ member)).2.1
          omega
      · obtain ⟨segment, member, found⟩ := ih _ tiles.2.2 (coalesced_tail _ _ coalesced) (by omega)
          (fun other inside => unused other (List.mem_cons_of_mem _ inside))
        exact ⟨segment, List.mem_cons_of_mem _ member, found⟩

theorem all_free_single (low high : Nat) (segments : List Segment) (tiles : Tiles low segments high)
    (coalesced : Coalesced segments) (nonempty : low < high)
    (free : ∀ segment ∈ segments, segment.free = true) :
    segments = [⟨low, high - low, true⟩] := by
  have single : Tiles low [⟨low, high - low, true⟩] high :=
    ⟨rfl, Nat.sub_pos_of_lt nonempty, by simp only [Tiles]; omega⟩
  apply tiling_canonical low high segments _ tiles single coalesced
  · exact List.isChain_singleton _
  · intro segment isUsed
    refine iff_of_false (fun member => ?_) (fun member => ?_)
    · simp [free segment member] at isUsed
    · rw [List.mem_singleton.mp member] at isUsed
      exact Bool.noConfusion isUsed

def Segment.relative (base : Nat) (segment : Segment) : Segment :=
  { segment with addr := segment.addr - base }

theorem tiles_relative (base low high : Nat) (segments : List Segment)
    (tiles : Tiles low segments high) (above : base ≤ low) :
    Tiles (low - base) (segments.map (Segment.relative base)) (high - base) := by
  induction segments generalizing low with
  | nil => simp only [Tiles] at tiles; simp [Tiles, tiles]
  | cons first rest ih =>
      obtain ⟨start, positive, tail⟩ := tiles
      have shifted := ih _ tail (by omega)
      have next : low + first.size - base = low - base + first.size := by omega
      refine ⟨by simp [Segment.relative, start], positive, ?_⟩
      simpa [Segment.relative, next] using shifted

theorem coalesced_relative (base : Nat) (segments : List Segment) (coalesced : Coalesced segments) :
    Coalesced (segments.map (Segment.relative base)) := by
  apply (List.isChain_map _).mpr
  exact coalesced

end LinuxMemory.Tiling
