import Mathlib.Data.List.Find
import LinuxMemory.FreelistLayout

/-!
What `my_malloc` and `my_free` do to the layout. `takeLayout` and
`releaseLayout` are the two calls on layouts; the heap after a call represents
the layout after it, and between calls a consistent layout stays consistent.
-/

namespace LinuxMemory.Freelist

open ByteMemory LinkedList Tiling

def Layout.firstFit (layout : Layout) (need : Nat) : Option Nat :=
  layout.freeList.find? fun a => layout.chunks.any fun c => c.addr == a && decide (need ≤ c.size)

/-- What becomes of a free chunk that serves a request of `need` bytes. -/
def carve (c : Chunk) (need : Nat) : List Chunk :=
  if 64 ≤ c.size - need then [⟨c.addr, need, false⟩, ⟨c.addr + need, c.size - need, true⟩]
  else [⟨c.addr, c.size, false⟩]

def takeLayout (front : List Chunk) (c : Chunk) (rest : List Chunk) (freeList : List Nat)
    (need : Nat) : Layout :=
  ⟨front ++ carve c need ++ rest,
    if 64 ≤ c.size - need then (c.addr + need) :: freeList.erase c.addr else freeList.erase c.addr⟩

def joinNext (c : Chunk) (rest : List Chunk) (freeList : List Nat) : Chunk × List Chunk × List Nat :=
  match rest with
  | [] => (c, [], freeList)
  | n :: others =>
      if n.free then (⟨c.addr, c.size + n.size, true⟩, others, freeList.erase n.addr)
      else (c, n :: others, freeList)

def joinPrev (front : List Chunk) (c : Chunk) (freeList : List Nat) : List Chunk × Chunk × List Nat :=
  match front.getLast? with
  | none => (front, c, freeList)
  | some p =>
      if p.free then (front.dropLast, ⟨p.addr, p.size + c.size, true⟩, freeList.erase p.addr)
      else (front, c, freeList)

def releaseLayout (front : List Chunk) (c : Chunk) (rest : List Chunk) (freeList : List Nat) : Layout :=
  let next := joinNext { c with free := true } rest freeList
  let prev := joinPrev front next.1 next.2.2
  ⟨prev.1 ++ prev.2.1 :: next.2.1, prev.2.1.addr :: prev.2.2⟩

/-! The memory follows. -/

section Memory
variable {s : Heap} {front rest : List Chunk} {c : Chunk} {freeList : List Nat}

theorem rep_csz (layout : Layout) (rep : Rep s layout) (member : c ∈ layout.chunks) :
    csz s.memory c.addr = c.size :=
  csz_eq s.memory c (rep_placed s layout rep c member) (rep.tagged c member).header

theorem rep_cfree (layout : Layout) (rep : Rep s layout) (member : c ∈ layout.chunks) :
    cfree s.memory c.addr = c.free :=
  cfree_eq s.memory c (rep_placed s layout rep c member) (rep.tagged c member).header

theorem rep_nextOf (layout : Layout) (rep : Rep s layout) (member : c ∈ layout.chunks) :
    nextOf s.memory c.addr = c.addr + c.size :=
  nextOf_eq s.memory c (rep_placed s layout rep c member) (rep.tagged c member).header

theorem rep_prevOf (p : Chunk) (rep : Rep s ⟨front ++ p :: c :: rest, freeList⟩) :
    prevOf s c.addr = p.addr := by
  have inside : p ∈ front ++ p :: c :: rest := by simp
  obtain ⟨aligned, whole, room, below⟩ := rep_placed s _ rep p inside
  have adjacent : c.addr = p.addr + p.size := tiles_adjacent _ _ front rest p c rep.tiles
  have low := (tiles_bounds _ _ _ rep.tiles p inside).1
  have cBelow := (rep_placed s _ rep c (by simp)).below
  have mask : tag p &&& Word.not 1 = p.size := by
    rw [← csz_eq s.memory p ⟨aligned, whole, room, below⟩ (rep.tagged p inside).header, csz,
      sizeFlags, (rep.tagged p inside).header]
  have footer : Word.sub c.addr ftrSz = p.addr + p.size - 16 := by
    rw [ftrSz_eq, Word.sub_exact _ _ (by omega) (by omega), adjacent]
  rw [prevOf, if_neg (by omega), footer, sizeFlags, (rep.tagged p inside).footer, mask,
    Word.sub_exact _ _ (by omega) (by omega), adjacent]
  omega

theorem rep_prevOf_first (rep : Rep s ⟨c :: rest, freeList⟩) : prevOf s c.addr = 0 := by
  have first : c.addr = s.heapBase := tiles_first _ _ rest c rep.tiles
  simp [prevOf, first]

theorem rep_mark (rep : Rep s ⟨front ++ c :: rest, freeList⟩) (free : Bool) :
    Rep (setSize s c.addr c.size free) ⟨front ++ { c with free := free } :: rest, freeList⟩ := by
  have placed := rep_placed s _ rep c (by simp)
  have marked := setSize_eq s { c with free := free } ⟨placed.aligned, placed.whole, placed.room, placed.below⟩
  simp only at marked
  rw [marked]
  have shape : ∀ d : Chunk, front ++ d :: rest = front ++ [d] ++ rest := by simp
  rw [shape] at rep ⊢
  apply rep_retag s front [c] [{ c with free := free }] rest freeList rep
  · rintro low high ⟨start, positive, done⟩
    exact ⟨start, positive, done⟩
  · intro d member
    rw [List.mem_singleton.mp member]
    exact ⟨placed.whole, placed.room⟩
  · intro d member _
    rw [List.mem_singleton.mp member]
    exact ⟨{ c with free := free }, List.mem_singleton_self _, rfl⟩

theorem placed_merge (n : Chunk) (rep : Rep s ⟨front ++ c :: n :: rest, freeList⟩) :
    Placed ⟨c.addr, c.size + n.size, true⟩ ∧ n.addr = c.addr + c.size ∧
      Word.add (csz s.memory c.addr) (csz s.memory n.addr) = c.size + n.size := by
  have adjacent : n.addr = c.addr + c.size := tiles_adjacent _ _ front rest c n rep.tiles
  obtain ⟨aligned, whole, room, below⟩ := rep_placed s _ rep c (by simp)
  obtain ⟨aligned', whole', room', below'⟩ := rep_placed s _ rep n (by simp)
  refine ⟨⟨aligned, ?_, ?_, ?_⟩, adjacent, ?_⟩
  · show (c.size + n.size) % 16 = 0
    omega
  · show 64 ≤ c.size + n.size
    omega
  · show c.addr + (c.size + n.size) < 2 ^ 64
    omega
  · rw [rep_csz _ rep (by simp), rep_csz _ rep (by simp), Word.add_exact _ _ (by omega)]

/-- Writing the merged tags over two neighbours, the second one off the list. -/
theorem rep_merge (n : Chunk) (rep : Rep s ⟨front ++ c :: n :: rest, freeList⟩)
    (off : n.addr ∉ freeList) :
    Rep (setSize s c.addr (Word.add (csz s.memory c.addr) (csz s.memory n.addr)) true)
      ⟨front ++ ⟨c.addr, c.size + n.size, true⟩ :: rest, freeList⟩ := by
  obtain ⟨merged, adjacent, size⟩ := placed_merge n rep
  have marked := setSize_eq s ⟨c.addr, c.size + n.size, true⟩ merged
  simp only at marked
  rw [size, marked]
  have shape : front ++ c :: n :: rest = front ++ [c, n] ++ rest := by simp
  have shape' : ∀ d : Chunk, front ++ d :: rest = front ++ [d] ++ rest := by simp
  rw [shape] at rep
  rw [shape']
  apply rep_retag s front [c, n] [⟨c.addr, c.size + n.size, true⟩] rest freeList rep
  -- the merged chunk tiles the bytes of the two
  · rintro low high ⟨start, positive, -, -, done⟩
    exact ⟨start, by show 0 < c.size + n.size; omega, by simpa [Tiles, Nat.add_assoc] using done⟩
  · intro d member
    rw [List.mem_singleton.mp member]
    exact ⟨merged.whole, merged.room⟩
  · intro d member listed
    simp only [List.mem_cons, List.not_mem_nil, or_false] at member
    rcases member with rfl | rfl
    · exact ⟨_, List.mem_singleton_self _, rfl⟩
    · exact absurd listed off

theorem coalesceNext_cases (rep : Rep s ⟨front ++ c :: rest, freeList⟩) :
    (coalesceNext s c.addr = s ∧ joinNext c rest freeList = (c, rest, freeList)) ∨
    ∃ n others, rest = n :: others ∧ n.free = true ∧
      coalesceNext s c.addr = setSize (flRemove s n.addr) c.addr
        (Word.add (csz (flRemove s n.addr).memory c.addr) (csz (flRemove s n.addr).memory n.addr)) true ∧
      joinNext c rest freeList = (⟨c.addr, c.size + n.size, true⟩, others, freeList.erase n.addr) := by
  have next := rep_nextOf _ rep (c := c) (by simp)
  cases rest with
  | nil =>
      have last : c.addr + c.size = s.heapEnd := tiles_last _ _ front c rep.tiles
      refine Or.inl ⟨?_, rfl⟩
      simp only [coalesceNext, next, last, Nat.lt_irrefl, false_and, ↓reduceIte]
  | cons n others =>
      have adjacent : n.addr = c.addr + c.size := tiles_adjacent _ _ front others c n rep.tiles
      have bounds := tiles_bounds _ _ _ rep.tiles n (by simp)
      -- the guard `n < heap_end` of the source holds for every chunk but the last
      have inside : n.addr < s.heapEnd := by omega
      have flag := rep_cfree _ rep (c := n) (by simp)
      cases isFree : n.free with
      | false =>
          refine Or.inl ⟨?_, by simp [joinNext, isFree]⟩
          simp [coalesceNext, next, ← adjacent, flag, isFree]
      | true =>
          refine Or.inr ⟨n, others, rfl, isFree, ?_, by simp [joinNext, isFree]⟩
          simp only [coalesceNext, next, ← adjacent, inside, true_and, flag, isFree, ↓reduceIte]

theorem rep_coalesceNext (rep : Rep s ⟨front ++ c :: rest, freeList⟩)
    (listed : ∀ n ∈ rest, n.free = true → n.addr ∈ freeList) :
    Rep (coalesceNext s c.addr)
      ⟨front ++ (joinNext c rest freeList).1 :: (joinNext c rest freeList).2.1,
        (joinNext c rest freeList).2.2⟩ := by
  rcases coalesceNext_cases rep with ⟨same, joined⟩ | ⟨n, others, rfl, isFree, merged, joined⟩
  · rw [same, joined]
    exact rep
  · rw [merged, joined]
    have removed := rep_flRemove s _ rep n.addr (listed n (by simp) isFree)
    have off : n.addr ∉ freeList.erase n.addr :=
      fun again => ((freeList_nodup rep).mem_erase_iff.mp again).1 rfl
    exact rep_merge n removed off

theorem coalescePrev_cases (rep : Rep s ⟨front ++ c :: rest, freeList⟩) :
    (coalescePrev s c.addr = (s, c.addr) ∧ joinPrev front c freeList = (front, c, freeList)) ∨
    ∃ before p, front = before ++ [p] ∧ p.free = true ∧
      coalescePrev s c.addr = (setSize (flRemove s p.addr) p.addr
        (Word.add (csz (flRemove s p.addr).memory p.addr) (csz (flRemove s p.addr).memory c.addr)) true,
        p.addr) ∧
      joinPrev front c freeList = (before, ⟨p.addr, p.size + c.size, true⟩, freeList.erase p.addr) := by
  rcases List.eq_nil_or_concat front with rfl | ⟨before, p, rfl⟩
  · have first := rep_prevOf_first rep
    refine Or.inl ⟨?_, rfl⟩
    simp only [coalescePrev, first, ne_eq, not_true_eq_false, false_and, ↓reduceIte]
  · have shape : before.concat p ++ c :: rest = before ++ p :: c :: rest := by simp
    rw [shape] at rep
    have previous := rep_prevOf p rep
    have valid := chunk_not_null rep p (by simp)
    have flag := rep_cfree _ rep (c := p) (by simp)
    cases isFree : p.free with
    | false =>
        refine Or.inl ⟨?_, by simp [joinPrev, isFree]⟩
        simp [coalescePrev, previous, flag, isFree]
    | true =>
        refine Or.inr ⟨before, p, by simp, isFree, ?_, by simp [joinPrev, isFree]⟩
        simp only [coalescePrev, previous, ne_eq, valid, not_false_eq_true, true_and, flag, isFree,
          ↓reduceIte]

theorem rep_coalescePrev (rep : Rep s ⟨front ++ c :: rest, freeList⟩)
    (fresh : c.addr ∉ freeList) (listed : ∀ p ∈ front, p.free = true → p.addr ∈ freeList) :
    (coalescePrev s c.addr).2 = (joinPrev front c freeList).2.1.addr ∧
    Rep (coalescePrev s c.addr).1
      ⟨(joinPrev front c freeList).1 ++ (joinPrev front c freeList).2.1 :: rest,
        (joinPrev front c freeList).2.2⟩ := by
  rcases coalescePrev_cases rep with ⟨same, joined⟩ | ⟨before, p, rfl, isFree, merged, joined⟩
  · rw [same, joined]
    exact ⟨rfl, rep⟩
  · rw [merged, joined]
    have shape : before ++ [p] ++ c :: rest = before ++ p :: c :: rest := by simp
    rw [shape] at rep
    have removed := rep_flRemove s _ rep p.addr (listed p (by simp) isFree)
    have off : c.addr ∉ freeList.erase p.addr := fun again => fresh (List.mem_of_mem_erase again)
    exact ⟨rfl, rep_merge c removed off⟩

theorem placed_split (rep : Rep s ⟨front ++ c :: rest, freeList⟩) (need : Nat)
    (whole : need % 16 = 0) (room : 64 ≤ need) (enough : 64 ≤ c.size - need) :
    Placed ⟨c.addr, need, false⟩ ∧ Placed ⟨c.addr + need, c.size - need, true⟩ := by
  obtain ⟨cAligned, cWhole, cRoom, cBelow⟩ := rep_placed s _ rep c (by simp)
  refine ⟨⟨cAligned, whole, room, ?_⟩, ⟨?_, ?_, enough, ?_⟩⟩
  · show c.addr + need < 2 ^ 64
    omega
  · show (c.addr + need) % 16 = 0
    omega
  · show (c.size - need) % 16 = 0
    omega
  · show c.addr + need + (c.size - need) < 2 ^ 64
    omega

theorem rep_split (rep : Rep s ⟨front ++ c :: rest, freeList⟩) (need : Nat) (whole : need % 16 = 0)
    (room : 64 ≤ need) (enough : 64 ≤ c.size - need) :
    nextOf (setSize s c.addr need false).memory c.addr = c.addr + need ∧
    Rep (setSize (setSize s c.addr need false) (c.addr + need) (c.size - need) true)
      ⟨front ++ [⟨c.addr, need, false⟩, ⟨c.addr + need, c.size - need, true⟩] ++ rest, freeList⟩ := by
  obtain ⟨first, second⟩ := placed_split rep need whole room enough
  have markFirst := setSize_eq s ⟨c.addr, need, false⟩ first
  have markSecond := setSize_eq { s with memory := writeTags s.memory ⟨c.addr, need, false⟩ }
    ⟨c.addr + need, c.size - need, true⟩ second
  have remainder := nextOf_eq _ _ first (tagged_writeTags s.memory _ first).header
  simp only at markFirst markSecond remainder
  rw [markFirst, markSecond]
  refine ⟨remainder, ?_⟩
  have shape : front ++ c :: rest = front ++ [c] ++ rest := by simp
  rw [shape] at rep
  apply rep_retag s front [c] [⟨c.addr, need, false⟩, ⟨c.addr + need, c.size - need, true⟩] rest
    freeList rep
  · rintro low high ⟨start, -, done⟩
    refine ⟨start, by show 0 < need; omega, by show c.addr + need = low + need; omega,
      by show 0 < c.size - need; omega, ?_⟩
    show low + need + (c.size - need) = high
    simp only [Tiles] at done
    omega
  · intro d member
    simp only [List.mem_cons, List.not_mem_nil, or_false] at member
    rcases member with rfl | rfl
    · exact ⟨first.whole, first.room⟩
    · exact ⟨second.whole, second.room⟩
  · intro d member _
    rw [List.mem_singleton.mp member]
    exact ⟨⟨c.addr, need, false⟩, List.mem_cons_self, rfl⟩

theorem fresh_inside (rep : Rep s ⟨front ++ c :: rest, freeList⟩) (need : Nat) (positive : 0 < need)
    (below : need < c.size) : c.addr + need ∉ freeList := by
  intro listed
  obtain ⟨d, member, same⟩ := rep.listed _ listed
  -- a chunk that starts inside `c` would meet it
  rcases rep_apart _ _ rep c d (by simp) member with rfl | apart
  · omega
  · have room := (rep_placed _ _ rep d member).room
    unfold Segment.Apart at apart
    omega

theorem rep_takeChunk (rep : Rep s ⟨front ++ c :: rest, freeList⟩) (need : Nat)
    (listed : c.addr ∈ freeList) (whole : need % 16 = 0) (room : 64 ≤ need) (fits : need ≤ c.size) :
    Rep (takeChunk s c.addr need) (takeLayout front c rest freeList need) := by
  have removed := rep_flRemove s _ rep c.addr listed
  have below := (rep_placed s _ rep c (by simp)).below
  have size := rep_csz (c := c) _ removed (by simp)
  have leftover : Word.sub c.size need = c.size - need := Word.sub_exact _ _ fits (by omega)
  unfold takeChunk takeLayout carve
  simp only [size, leftover, minChunk_eq, ge_iff_le]
  split
  · next enough =>
    -- the rest is a chunk of its own, with its header behind the first piece
    obtain ⟨remainder, cut⟩ := rep_split removed need whole room enough
    rw [remainder]
    have fresh := fresh_inside removed need (by omega) (by omega)
    exact rep_flInsert _ _ cut ⟨c.addr + need, c.size - need, true⟩ (by simp) fresh
  · simpa using rep_mark removed false

end Memory

/-! Consistency. -/

section Consistency
variable {front rest : List Chunk} {c : Chunk} {freeList : List Nat}

@[simp] theorem freeAddrs_append (left right : List Chunk) :
    freeAddrs (left ++ right) = freeAddrs left ++ freeAddrs right := by
  simp [freeAddrs]

theorem freeAddrs_free (free : c.free = true) : freeAddrs (c :: rest) = c.addr :: freeAddrs rest := by
  simp [freeAddrs, free]

theorem freeAddrs_used (used : c.free = false) : freeAddrs (c :: rest) = freeAddrs rest := by
  simp [freeAddrs, used]

theorem mem_freeAddrs (chunks : List Chunk) (a : Nat) :
    a ∈ freeAddrs chunks ↔ ∃ c ∈ chunks, c.free = true ∧ c.addr = a := by
  simp [freeAddrs, and_assoc]

@[simp] theorem usedChunks_append (left right : List Chunk) :
    usedChunks (left ++ right) = usedChunks left ++ usedChunks right := by
  simp [usedChunks]

theorem usedChunks_free (free : c.free = true) : usedChunks (c :: rest) = usedChunks rest := by
  simp [usedChunks, free]

theorem usedChunks_used (used : c.free = false) : usedChunks (c :: rest) = c :: usedChunks rest := by
  simp [usedChunks, used]

theorem mem_usedChunks (chunks : List Chunk) : c ∈ usedChunks chunks ↔ c ∈ chunks ∧ c.free = false := by
  simp [usedChunks]

theorem perm_erase_middle (left right addrs : List Nat) (a : Nat)
    (exact : addrs.Perm (left ++ a :: right)) : (addrs.erase a).Perm (left ++ right) := by
  have moved := (exact.trans List.perm_middle).erase a
  simpa using moved

theorem consistent_takeLayout (consistent : Consistent ⟨front ++ c :: rest, freeList⟩)
    (free : c.free = true) (need : Nat) : Consistent (takeLayout front c rest freeList need) := by
  have around := (coalesced_around front rest c).mp consistent.coalesced
  have exact := consistent.exact
  rw [freeAddrs_append, freeAddrs_free free] at exact
  have erased := perm_erase_middle _ _ _ _ exact
  obtain ⟨early, late, -, nextUsed⟩ := around
  unfold takeLayout carve
  split
  · constructor
    · have shape : ∀ a b : Chunk, front ++ [a, b] ++ rest = front ++ a :: b :: rest := by simp
      simp only [shape]
      -- the remainder is free; what follows was behind a free chunk and is used
      refine (coalesced_around front _ _).mpr ⟨early, ?_, by simp, by simp⟩
      exact List.isChain_cons.mpr ⟨fun n next isFree => nextUsed n next free, late⟩
    · simp only [freeAddrs_append]
      refine (erased.cons (c.addr + need)).trans ?_
      simpa [freeAddrs] using List.perm_middle.symm
  · constructor
    · have shape : ∀ a : Chunk, front ++ [a] ++ rest = front ++ a :: rest := by simp
      simp only [shape]
      exact (coalesced_around front _ _).mpr ⟨early, late, by simp, by simp⟩
    · simpa [freeAddrs] using erased

theorem joinNext_spec (front : List Chunk) (free : c.free = true) (coalesced : Coalesced rest)
    (exact : freeList.Perm (freeAddrs front ++ freeAddrs rest)) :
    (joinNext c rest freeList).1.free = true ∧ (joinNext c rest freeList).1.addr = c.addr ∧
    Coalesced (joinNext c rest freeList).2.1 ∧
    (∀ n ∈ (joinNext c rest freeList).2.1.head?, n.free = false) ∧
    (joinNext c rest freeList).2.2.Perm (freeAddrs front ++ freeAddrs (joinNext c rest freeList).2.1) := by
  cases rest with
  | nil => exact ⟨free, rfl, coalesced, by simp [joinNext], exact⟩
  | cons n others =>
      cases isFree : n.free with
      | false =>
          simp only [joinNext, isFree, Bool.false_eq_true, ↓reduceIte, true_and]
          exact ⟨free, coalesced, by simpa using isFree, exact⟩
      | true =>
          have tail := List.isChain_cons.mp coalesced
          simp only [joinNext, isFree, ↓reduceIte, true_and]
          rw [freeAddrs_free isFree] at exact
          exact ⟨tail.2, fun m head => tail.1 m head isFree, perm_erase_middle _ _ _ _ exact⟩

theorem joinPrev_spec (rest : List Chunk) (free : c.free = true) (coalesced : Coalesced front)
    (exact : freeList.Perm (freeAddrs front ++ freeAddrs rest)) :
    (joinPrev front c freeList).2.1.free = true ∧ Coalesced (joinPrev front c freeList).1 ∧
    (∀ p ∈ (joinPrev front c freeList).1.getLast?, p.free = false) ∧
    (joinPrev front c freeList).2.2.Perm
      (freeAddrs (joinPrev front c freeList).1 ++ freeAddrs rest) := by
  rcases List.eq_nil_or_concat front with rfl | ⟨before, p, rfl⟩
  · exact ⟨free, List.isChain_nil, by simp [joinPrev], exact⟩
  · rw [List.concat_eq_append] at *
    cases isFree : p.free with
    | false =>
        simp only [joinPrev, List.getLast?_concat, isFree, Bool.false_eq_true, ↓reduceIte]
        exact ⟨free, coalesced, by simpa using isFree, exact⟩
    | true =>
        -- the chunk before a free one is used, so one merge is enough
        obtain ⟨early, -, lastUsed, -⟩ := (coalesced_around before [] p).mp coalesced
        have usedBefore : ∀ q ∈ before.getLast?, q.free = false := by
          intro q last
          by_contra notUsed
          have := lastUsed q last (by simpa using notUsed)
          simp [isFree] at this
        rw [freeAddrs_append, freeAddrs_free isFree, List.append_assoc] at exact
        simp only [joinPrev, List.getLast?_concat, isFree, ↓reduceIte, List.dropLast_concat, true_and]
        exact ⟨early, usedBefore, perm_erase_middle _ _ _ _ exact⟩

theorem fresh_between (low high : Nat) (tiles : Tiles low (front ++ c :: rest) high)
    (exact : freeList.Perm (freeAddrs front ++ freeAddrs rest)) : c.addr ∉ freeList := by
  intro member
  rcases List.mem_append.mp (exact.mem_iff.mp member) with early | late
  · obtain ⟨d, inside, -, same⟩ := (mem_freeAddrs _ _).mp early
    exact tiles_other_addr low high front rest c d tiles (List.mem_append_left _ inside) same
  · obtain ⟨d, inside, -, same⟩ := (mem_freeAddrs _ _).mp late
    exact tiles_other_addr low high front rest c d tiles (List.mem_append_right _ inside) same

theorem exact_around (used : c.free = false) (consistent : Consistent ⟨front ++ c :: rest, freeList⟩) :
    freeList.Perm (freeAddrs front ++ freeAddrs rest) := by
  have exact := consistent.exact
  rwa [freeAddrs_append, freeAddrs_used used] at exact

theorem consistent_releaseLayout (used : c.free = false)
    (consistent : Consistent ⟨front ++ c :: rest, freeList⟩) :
    Consistent (releaseLayout front c rest freeList) := by
  obtain ⟨early, late, -, -⟩ := (coalesced_around front rest c).mp consistent.coalesced
  have exact := exact_around used consistent
  obtain ⟨isFree, -, lateNext, headUsed, exactNext⟩ :=
    joinNext_spec (c := { c with free := true }) front rfl late exact
  obtain ⟨isFree', earlyPrev, lastUsed, exactPrev⟩ := joinPrev_spec _ isFree early exactNext
  constructor
  · refine (coalesced_around _ _ _).mpr ⟨earlyPrev, lateNext, ?_, fun n head _ => headUsed n head⟩
    intro p last wasFree
    simp [lastUsed p last] at wasFree
  · simp only [releaseLayout, freeAddrs_append, freeAddrs_free isFree']
    exact (exactPrev.cons _).trans List.perm_middle.symm

theorem myFree_header (s : Heap) (h p : Nat) (valid : p ≠ 0) (header : Word.sub p hdrSz = h) :
    myFree s p =
      flInsert (coalescePrev (coalesceNext (setSize s h (csz s.memory h) true) h) h).1
        (coalescePrev (coalesceNext (setSize s h (csz s.memory h) true) h) h).2 := by
  unfold myFree
  rw [if_neg valid, header]

/-- The heap after each statement of `my_free`, and the layouts it represents. -/
structure FreeStages (s marked next prev : Heap) (front : List Chunk) (c : Chunk) (rest : List Chunk)
    (freeList : List Nat) (joined : Chunk × List Chunk × List Nat)
    (joined' : List Chunk × Chunk × List Nat) : Prop where
  first : marked = setSize s c.addr c.size true
  second : next = coalesceNext marked c.addr
  third : prev = (coalescePrev next c.addr).1
  last : myFree s (c.addr + 32) = flInsert prev joined'.2.1.addr
  repMarked : Rep marked ⟨front ++ { c with free := true } :: rest, freeList⟩
  repNext : Rep next ⟨front ++ joined.1 :: joined.2.1, joined.2.2⟩
  repPrev : Rep prev ⟨joined'.1 ++ joined'.2.1 :: joined.2.1, joined'.2.2⟩
  sameAddr : joined.1.addr = c.addr
  listed : ∀ n ∈ rest, n.free = true → n.addr ∈ freeList
  listed' : ∀ p ∈ front, p.free = true → p.addr ∈ joined.2.2
  fresh : joined'.2.1.addr ∉ joined'.2.2

theorem myFree_stages (s : Heap) (rep : Rep s ⟨front ++ c :: rest, freeList⟩) (used : c.free = false)
    (consistent : Consistent ⟨front ++ c :: rest, freeList⟩) :
    ∃ marked next prev, FreeStages s marked next prev front c rest freeList
      (joinNext { c with free := true } rest freeList)
      (joinPrev front (joinNext { c with free := true } rest freeList).1
        (joinNext { c with free := true } rest freeList).2.2) := by
  obtain ⟨early, late, -, -⟩ := (coalesced_around front rest c).mp consistent.coalesced
  have exact := exact_around used consistent
  obtain ⟨isFree, sameAddr, -, -, exactNext⟩ :=
    joinNext_spec (c := { c with free := true }) front rfl late exact
  obtain ⟨-, -, -, exactPrev⟩ := joinPrev_spec _ isFree early exactNext
  have placed := rep_placed s _ rep c (by simp)
  have header : Word.sub (c.addr + 32) hdrSz = c.addr := by
    have := placed.room
    have := placed.below
    rw [hdrSz_eq, Word.sub_exact _ _ (by omega) (by omega)]
    omega
  have listed : ∀ n ∈ rest, n.free = true → n.addr ∈ freeList := fun n inside free =>
    exact.mem_iff.mpr (List.mem_append_right _ ((mem_freeAddrs _ _).mpr ⟨n, inside, free, rfl⟩))
  have listed' : ∀ p ∈ front, p.free = true →
      p.addr ∈ (joinNext { c with free := true } rest freeList).2.2 := fun p inside free =>
    exactNext.mem_iff.mpr (List.mem_append_left _ ((mem_freeAddrs _ _).mpr ⟨p, inside, free, rfl⟩))
  have size := rep_csz (c := c) _ rep (by simp)
  have result := myFree_header s c.addr _ (by omega : c.addr + 32 ≠ 0) header
  rw [size] at result
  have marked := rep_mark rep true
  -- each statement starts from the heap that the one before it left
  generalize isMarked : setSize s c.addr c.size true = s₁ at marked result
  have next := rep_coalesceNext marked listed
  simp only at next
  generalize isNext : coalesceNext s₁ c.addr = s₂ at next result
  have prev := rep_coalescePrev next (fresh_between _ _ next.tiles exactNext) listed'
  rw [sameAddr] at prev
  rw [prev.1] at result
  exact ⟨s₁, s₂, _, isMarked.symm, isNext.symm, rfl, result, marked, next, prev.2, sameAddr, listed,
    listed', fresh_between _ _ prev.2.tiles exactPrev⟩

theorem rep_myFree (s : Heap) (rep : Rep s ⟨front ++ c :: rest, freeList⟩) (used : c.free = false)
    (consistent : Consistent ⟨front ++ c :: rest, freeList⟩) :
    Rep (myFree s (c.addr + 32)) (releaseLayout front c rest freeList) := by
  obtain ⟨marked, next, prev, stages⟩ := myFree_stages s rep used consistent
  rw [stages.last]
  exact rep_flInsert _ _ stages.repPrev _ (by simp) stages.fresh

def granted (c : Chunk) (need : Nat) : Chunk :=
  ⟨c.addr, if 64 ≤ c.size - need then need else c.size, false⟩

theorem usedChunks_takeLayout (front rest : List Chunk) (freeList : List Nat) (free : c.free = true)
    (need : Nat) :
    (usedChunks (takeLayout front c rest freeList need).chunks).Perm
      (granted c need :: usedChunks (front ++ c :: rest)) := by
  have pieces : usedChunks (carve c need) = [granted c need] := by
    unfold carve granted
    split <;> simp [usedChunks]
  simp only [takeLayout, usedChunks_append, pieces, usedChunks_free free, List.append_assoc]
  exact List.perm_middle

theorem usedChunks_joinNext : usedChunks (joinNext c rest freeList).2.1 = usedChunks rest := by
  cases rest with
  | nil => rfl
  | cons n others =>
      cases isFree : n.free with
      | false => simp [joinNext, isFree]
      | true => simp [joinNext, isFree, usedChunks_free isFree]

theorem usedChunks_joinPrev : usedChunks (joinPrev front c freeList).1 = usedChunks front := by
  rcases List.eq_nil_or_concat front with rfl | ⟨before, p, rfl⟩
  · rfl
  · rw [List.concat_eq_append]
    cases isFree : p.free with
    | false => simp [joinPrev, isFree]
    | true => simp [joinPrev, isFree, usedChunks]

theorem usedChunks_releaseLayout (used : c.free = false)
    (consistent : Consistent ⟨front ++ c :: rest, freeList⟩) :
    usedChunks (releaseLayout front c rest freeList).chunks = usedChunks front ++ usedChunks rest := by
  obtain ⟨early, late, -, -⟩ := (coalesced_around front rest c).mp consistent.coalesced
  have exact := exact_around used consistent
  obtain ⟨isFree, -, -, -, exactNext⟩ :=
    joinNext_spec (c := { c with free := true }) front rfl late exact
  obtain ⟨isFree', -, -, -⟩ := joinPrev_spec _ isFree early exactNext
  simp only [releaseLayout, usedChunks_append, usedChunks_free isFree', usedChunks_joinNext,
    usedChunks_joinPrev]

end Consistency

/-! The size that `my_malloc` asks for. -/

theorem needOf_eq (req : Nat) :
    needOf req = max 64 (Word.add (Word.add (Word.add req 32) 16) 15 / 16 * 16) := by
  unfold needOf
  rw [alignUp_eq, hdrSz_eq, ftrSz_eq, minChunk_eq]
  simp only
  split <;> omega

theorem needOf_whole (req : Nat) : needOf req % 16 = 0 ∧ 64 ≤ needOf req := by
  rw [needOf_eq]
  omega

theorem needOf_exact (req : Nat) (small : req ≤ 2 ^ 64 - 64) :
    needOf req = max 64 ((req + 48 + 15) / 16 * 16) := by
  rw [needOf_eq, Word.add_exact req 32 (by omega), Word.add_exact (req + 32) 16 (by omega),
    Word.add_exact (req + 32 + 16) 15 (by omega)]

/-- The last 63 requests: the sum wraps and the clamp hides it. -/
theorem needOf_wrapped (req : Nat) (large : 2 ^ 64 - 64 < req) (request : req < 2 ^ 64) :
    needOf req = 64 := by
  rw [needOf_eq]
  unfold Word.add
  omega

/-! `my_malloc`. -/

theorem any_fits (s : Heap) (layout : Layout) (rep : Rep s layout) (need a : Nat)
    (listed : a ∈ layout.freeList) :
    decide (csz s.memory a ≥ need) =
      layout.chunks.any (fun c => c.addr == a && decide (need ≤ c.size)) := by
  obtain ⟨c, member, rfl⟩ := rep.listed a listed
  rw [rep_csz layout rep member, Bool.eq_iff_iff]
  simp only [ge_iff_le, decide_eq_true_eq, List.any_eq_true, Bool.and_eq_true, beq_iff_eq]
  constructor
  · exact fun fits => ⟨c, member, rfl, fits⟩
  · rintro ⟨d, inside, same, fits⟩
    rwa [tiles_addr_inj _ _ _ rep.tiles d c inside member same] at fits

theorem firstFit_find (s : Heap) (layout : Layout) (rep : Rep s layout) (need : Nat) :
    layout.freeList.find? (fun h => decide (csz s.memory h ≥ need)) = layout.firstFit need := by
  unfold Layout.firstFit
  exact List.find?_congr (fun a listed => any_fits s layout rep need a listed)

theorem firstFit_returns (s : Heap) (layout : Layout) (rep : Rep s layout) (need fuel : Nat)
    (enough : layout.freeList.length < fuel) :
    firstFit fuel s need = some ((layout.firstFit need).getD 0) := by
  rw [← firstFit_find s layout rep need]
  exact scan_returns fuel s.freeHead _ (doubly_linked_forward _ _ _ rep.links) enough

theorem firstFit_sound (s : Heap) (layout : Layout) (rep : Rep s layout) (need fuel h : Nat)
    (returned : firstFit fuel s need = some h) : h = (layout.firstFit need).getD 0 := by
  rw [← firstFit_find s layout rep need]
  exact scan_sound fuel s.freeHead h _ (doubly_linked_forward _ _ _ rep.links) returned

theorem myMalloc_returns (s : Heap) (layout : Layout) (rep : Rep s layout) (req fuel : Nat)
    (enough : layout.freeList.length < fuel) : ∃ result, myMalloc fuel s req = some result := by
  unfold myMalloc
  rw [firstFit_returns s layout rep _ fuel enough]
  split
  · exact ⟨_, rfl⟩
  · exact ⟨_, rfl⟩

theorem firstFit_none (layout : Layout) (consistent : Consistent layout) (need : Nat)
    (search : layout.firstFit need = none) : ∀ c ∈ layout.chunks, c.free = true → c.size < need := by
  intro c member free
  have listed : c.addr ∈ layout.freeList :=
    consistent.exact.mem_iff.mpr ((mem_freeAddrs _ _).mpr ⟨c, member, free, rfl⟩)
  -- every free chunk is listed, so the search has looked at it
  have small := List.find?_eq_none.mp search c.addr listed
  simp only [List.any_eq_true, Bool.and_eq_true, beq_iff_eq, decide_eq_true_eq, not_exists, not_and] at small
  exact Nat.lt_of_not_le (small c member rfl)

theorem firstFit_some (layout : Layout) (consistent : Consistent layout) (low high : Nat)
    (tiles : Tiles low layout.chunks high) (need a : Nat) (search : layout.firstFit need = some a) :
    ∃ c ∈ layout.chunks, c.addr = a ∧ c.free = true ∧ need ≤ c.size := by
  have listed := List.mem_of_find?_eq_some search
  obtain ⟨c, member, free, rfl⟩ := (mem_freeAddrs _ _).mp (consistent.exact.mem_iff.mp listed)
  have fits := List.find?_some search
  simp only [List.any_eq_true, Bool.and_eq_true, beq_iff_eq, decide_eq_true_eq] at fits
  obtain ⟨d, inside, same, room⟩ := fits
  rw [tiles_addr_inj _ _ _ tiles d c inside member same] at room
  exact ⟨c, member, rfl, free, room⟩

/-- Everything `my_malloc` can do on a represented heap. -/
theorem myMalloc_cases (s s' : Heap) (layout : Layout) (rep : Rep s layout)
    (consistent : Consistent layout) (fuel req p : Nat)
    (returned : myMalloc fuel s req = some (s', p)) :
    (p = 0 ∧ s' = s ∧ (req = 0 ∨ layout.firstFit (needOf req) = none)) ∨
    (req ≠ 0 ∧ ∃ front c rest, layout.chunks = front ++ c :: rest ∧ c.free = true ∧
      needOf req ≤ c.size ∧ layout.firstFit (needOf req) = some c.addr ∧ p = c.addr + 32 ∧
      s' = takeChunk s c.addr (needOf req)) := by
  unfold myMalloc at returned
  by_cases empty : req = 0
  · simp only [empty, ↓reduceIte, Option.some.injEq, Prod.mk.injEq] at returned
    exact Or.inl ⟨returned.2.symm, returned.1.symm, Or.inl empty⟩
  rw [if_neg empty] at returned
  obtain ⟨h, walked, result⟩ := Option.map_eq_some_iff.mp returned
  have found := firstFit_sound s layout rep _ fuel h walked
  cases search : layout.firstFit (needOf req) with
  | none =>
      rw [search] at found
      simp only [Option.getD_none] at found
      simp only [found, ↓reduceIte, Prod.mk.injEq] at result
      exact Or.inl ⟨result.2.symm, result.1.symm, Or.inr rfl⟩
  | some a =>
      rw [search] at found
      simp only [Option.getD_some] at found
      subst found
      obtain ⟨c, member, rfl, free, fits⟩ := firstFit_some layout consistent _ _ rep.tiles _ _ search
      have placed := rep_placed s layout rep c member
      have room := placed.room
      have below := placed.below
      have payload : Word.add c.addr hdrSz = c.addr + 32 := by
        rw [hdrSz_eq, Word.add_exact _ _ (by omega)]
      simp only [chunk_not_null rep c member, ↓reduceIte, payload, Prod.mk.injEq] at result
      obtain ⟨front, rest, shape⟩ := List.append_of_mem member
      exact Or.inr ⟨empty, front, c, rest, shape, free, fits, rfl, result.2.symm, result.1.symm⟩

theorem rep_myMalloc (s : Heap) (layout : Layout) (rep : Rep s layout) (consistent : Consistent layout)
    (front rest : List Chunk) (c : Chunk) (shape : layout.chunks = front ++ c :: rest)
    (free : c.free = true) (req : Nat) (fits : needOf req ≤ c.size) :
    Rep (takeChunk s c.addr (needOf req)) (takeLayout front c rest layout.freeList (needOf req)) ∧
    Consistent (takeLayout front c rest layout.freeList (needOf req)) := by
  obtain ⟨chunks, freeList⟩ := layout
  simp only at shape
  subst shape
  have size := needOf_whole req
  have listed : c.addr ∈ freeList :=
    consistent.exact.mem_iff.mpr ((mem_freeAddrs _ _).mpr ⟨c, by simp, free, rfl⟩)
  exact ⟨rep_takeChunk rep _ listed size.1 size.2 fits, consistent_takeLayout consistent free _⟩

end LinuxMemory.Freelist
