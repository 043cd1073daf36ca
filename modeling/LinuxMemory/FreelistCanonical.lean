import LinuxMemory.FreelistGuarantees

/-!
The live chunks determine the chunk layout. Every history of calls therefore
converges: orders of frees do not matter, a free undoes the allocation it
follows, and an empty heap is one chunk.
-/

namespace LinuxMemory.Freelist

open ByteMemory LinkedList Tiling Transition

def layoutOffsets (s : Heap) : List Chunk := (chunksOf s).map (Segment.relative s.heapBase)

def liveOffsets (c : Client) : List (Nat × Nat) :=
  c.live.map fun p => (p - hdrSz - c.heap.heapBase, csz c.heap.memory (p - hdrSz))

def freeAll (s : Heap) (pointers : List Nat) : Heap := pointers.foldl myFree s

section Canonical
variable {cap mapped mapped' : Nat} {c c' : Client} {layout layout' : Layout}

theorem mem_liveOffsets (related : Related cap mapped c layout) (offset size : Nat) :
    (offset, size) ∈ liveOffsets c ↔
      ⟨offset, size, false⟩ ∈ layout.chunks.map (Segment.relative c.heap.heapBase) := by
  simp only [liveOffsets, List.mem_map, hdrSz_eq]
  constructor
  · rintro ⟨p, held, same⟩
    obtain ⟨d, member, used, rfl⟩ := live_chunk related p held
    rw [Nat.add_sub_cancel, rep_csz layout related.rep member] at same
    obtain ⟨sameOffset, sameSize⟩ := Prod.mk.inj same
    exact ⟨d, member, by rw [Segment.relative, used, sameOffset, sameSize]⟩
  · rintro ⟨d, member, same⟩
    simp only [Segment.relative, Segment.mk.injEq] at same
    obtain ⟨rfl, rfl, used⟩ := same
    refine ⟨d.addr + 32, related.live.mem_iff.mpr
      (List.mem_map_of_mem ((mem_usedChunks _).mpr ⟨member, used⟩)), ?_⟩
    rw [Nat.add_sub_cancel, rep_csz layout related.rep member]

/-- Heaps of one capacity with the same used chunks have the same layout, up to
where they are mapped. -/
theorem offsets_canonical (left : Related cap mapped c layout) (right : Related cap mapped' c' layout')
    (same : ∀ offset size, (offset, size) ∈ liveOffsets c ↔ (offset, size) ∈ liveOffsets c') :
    layoutOffsets c.heap = layoutOffsets c'.heap := by
  unfold layoutOffsets
  rw [chunksOf_eq _ _ left.rep, chunksOf_eq _ _ right.rep]
  have leftTiles := tiles_relative c.heap.heapBase _ _ _ left.rep.tiles (Nat.le_refl _)
  have rightTiles := tiles_relative c'.heap.heapBase _ _ _ right.rep.tiles (Nat.le_refl _)
  -- both layouts tile the same offsets, whatever the bases
  rw [Nat.sub_self, left.fin, left.base, Nat.add_sub_cancel_left] at leftTiles
  rw [Nat.sub_self, right.fin, right.base, Nat.add_sub_cancel_left] at rightTiles
  rw [left.base, right.base]
  apply tiling_canonical _ _ _ _ leftTiles rightTiles (coalesced_relative _ _ left.consistent.coalesced)
    (coalesced_relative _ _ right.consistent.coalesced)
  rintro ⟨offset, size, free⟩ used
  simp only at used
  subst used
  rw [← left.base, ← right.base, ← mem_liveOffsets left, ← mem_liveOffsets right]
  exact same offset size

theorem chunks_of_offsets (related : Related cap mapped c layout) :
    (layoutOffsets c.heap).map (fun d => { d with addr := d.addr + mapped }) = chunksOf c.heap := by
  unfold layoutOffsets
  rw [List.map_map, chunksOf_eq _ _ related.rep, related.base]
  refine (List.map_congr_left fun d member => ?_).trans (List.map_id _)
  have low := (tiles_bounds _ _ _ related.rep.tiles d member).1
  rw [related.base] at low
  simp only [Function.comp_apply, Segment.relative, Nat.sub_add_cancel low, id_eq]

theorem chunks_canonical (left : Related cap mapped c layout) (right : Related cap mapped c' layout')
    (same : ∀ d, d ∈ usedChunks layout.chunks ↔ d ∈ usedChunks layout'.chunks) :
    layout.chunks = layout'.chunks := by
  have leftTiles := left.rep.tiles
  have rightTiles := right.rep.tiles
  rw [left.fin, left.base] at leftTiles
  rw [right.fin, right.base] at rightTiles
  apply tiling_canonical _ _ _ _ leftTiles rightTiles left.consistent.coalesced right.consistent.coalesced
  intro d used
  simpa [mem_usedChunks, used] using same d

theorem used_after_free (related : Related cap mapped c layout) (p : Nat)
    (next : LayoutStep layout (.free p) layout') (d : Chunk) :
    d ∈ usedChunks layout'.chunks ↔ d ∈ usedChunks layout.chunks ∧ d.addr + 32 ≠ p := by
  cases next with
  | null => simp
  | @release front rest e shape used =>
      have others := tiles_other_addr _ _ front rest e d (shape ▸ related.rep.tiles)
      have consistent := related.consistent
      obtain ⟨chunks, freeList⟩ := layout
      simp only at shape
      subst shape
      rw [usedChunks_releaseLayout used consistent, usedChunks_append, usedChunks_used used]
      -- the chunk that is freed is the only one at its address
      have inside : d ∈ usedChunks front ++ usedChunks rest → d.addr ≠ e.addr := by
        intro member
        apply others
        rcases List.mem_append.mp member with early | late
        · exact List.mem_append_left _ ((mem_usedChunks _).mp early).1
        · exact List.mem_append_right _ ((mem_usedChunks _).mp late).1
      constructor
      · intro member
        have apart := inside member
        refine ⟨?_, by omega⟩
        rw [List.mem_append] at member ⊢
        exact member.imp_right (List.mem_cons_of_mem _)
      · rintro ⟨member, different⟩
        have apart : d ≠ e := fun same => different (by rw [same])
        simpa [apart] using member

theorem related_freeAll (pointers : List Nat) (distinct : pointers.Nodup)
    (related : Related cap mapped c layout) (held : ∀ p ∈ pointers, p ∈ c.live) :
    ∃ after layout', Related cap mapped after layout' ∧ after.heap = freeAll c.heap pointers ∧
      ∀ d, d ∈ usedChunks layout'.chunks ↔ d ∈ usedChunks layout.chunks ∧ d.addr + 32 ∉ pointers := by
  induction pointers generalizing c layout with
  | nil => exact ⟨c, layout, related, rfl, by simp⟩
  | cons p others ih =>
      obtain ⟨fresh, distinct'⟩ := List.nodup_cons.mp distinct
      obtain ⟨middle, next, related'⟩ := related_free related p (Or.inr (held p List.mem_cons_self))
      have stillHeld : ∀ q ∈ others, q ∈ c.live.erase p := by
        intro q later
        have different : q ≠ p := fun same => fresh (same ▸ later)
        exact (List.mem_erase_of_ne different).mpr (held q (List.mem_cons_of_mem _ later))
      obtain ⟨after, layout', result, heap, used⟩ := ih distinct' related' stillHeld
      refine ⟨after, layout', result, heap, fun d => ?_⟩
      rw [used, used_after_free related p next]
      simp only [List.mem_cons, not_or, and_assoc]

theorem freeAll_perm (related : Related cap mapped c layout) (left right : List Nat)
    (distinct : left.Nodup) (held : ∀ p ∈ left, p ∈ c.live) (order : left.Perm right) :
    chunksOf (freeAll c.heap left) = chunksOf (freeAll c.heap right) := by
  obtain ⟨after, layout', related', heap, used⟩ := related_freeAll left distinct related held
  obtain ⟨after', layout'', related'', heap', used'⟩ := related_freeAll right
    (order.nodup_iff.mp distinct) related (fun p member => held p (order.mem_iff.mpr member))
  rw [← heap, ← heap', chunksOf_eq _ _ related'.rep, chunksOf_eq _ _ related''.rep]
  apply chunks_canonical related' related''
  intro d
  rw [used, used', order.mem_iff]

/-- Freeing what `my_malloc` has just returned undoes it. -/
theorem free_after_malloc (related : Related cap mapped c layout) (fuel req p : Nat) (heap : Heap)
    (returned : myMalloc fuel c.heap req = some (heap, p)) :
    chunksOf (myFree heap p) = chunksOf c.heap := by
  by_cases refused : p = 0
  · subst refused
    rcases myMalloc_cases _ _ layout related.rep related.consistent fuel req 0 returned with
      ⟨-, same, -⟩ | ⟨-, front, e, rest, -, -, -, -, isNull, -⟩
    · rw [same]
      rfl
    · omega
  obtain ⟨layout', d, related', rfl, member, isUsed, -, -, -, used⟩ :=
    malloc_grants cap mapped c layout related fuel req p heap returned refused
  obtain ⟨layout'', next, related''⟩ := related_free related' (d.addr + 32) (Or.inr List.mem_cons_self)
  have rep := related''.rep
  simp only at rep
  rw [chunksOf_eq _ _ rep, chunksOf_eq _ _ related.rep]
  refine chunks_canonical related'' related fun e => ?_
  rw [used_after_free related' _ next, used.mem_iff, List.mem_cons]
  -- the pieces of the two layouts agree away from `d`, and `d` itself is new
  have distinct : (d :: usedChunks layout.chunks).Pairwise (fun left right => left.addr ≠ right.addr) := by
    have addrs := usedChunks_nodup related'.rep
    exact List.pairwise_map.mp ((used.map Segment.addr).nodup_iff.mp addrs)
  have fresh := (List.pairwise_cons.mp distinct).1
  constructor
  · rintro ⟨rfl | before, different⟩
    · exact absurd rfl different
    · exact before
  · intro before
    have apart := fresh e before
    exact ⟨Or.inr before, by omega⟩

theorem empty_single (related : Related cap mapped c layout) (nonempty : 0 < initCap cap)
    (none : c.live = []) :
    chunksOf c.heap = [⟨c.heap.heapBase, c.heap.heapEnd - c.heap.heapBase, true⟩] := by
  rw [chunksOf_eq _ _ related.rep]
  have live := related.live
  rw [none] at live
  have noUsed : usedChunks layout.chunks = [] := List.map_eq_nil_iff.mp live.symm.eq_nil
  apply all_free_single _ _ _ related.rep.tiles related.consistent.coalesced
  · rw [related.base, related.fin]
    exact Nat.lt_add_of_pos_right nonempty
  · intro d member
    by_contra used
    have inside := (mem_usedChunks _).mpr ⟨member, Bool.eq_false_iff.mpr used⟩
    simp [noUsed] at inside

end Canonical

/-- The layout is a function of the live chunks. -/
theorem layout_canonical (cap mapped mapped' : Nat) (c c' : Client) (run : Run cap mapped c)
    (run' : Run cap mapped' c') :
    ((∀ offset size, (offset, size) ∈ liveOffsets c ↔ (offset, size) ∈ liveOffsets c') →
      layoutOffsets c.heap = layoutOffsets c'.heap ∧
      (mapped = mapped' → chunksOf c.heap = chunksOf c'.heap)) ∧
    (∀ left right : List Nat, left.Nodup → (∀ p ∈ left, p ∈ c.live) → left.Perm right →
      chunksOf (freeAll c.heap left) = chunksOf (freeAll c.heap right)) ∧
    (∀ fuel req p heap, myMalloc fuel c.heap req = some (heap, p) →
      chunksOf (myFree heap p) = chunksOf c.heap) ∧
    (c.live = [] → chunksOf c.heap = [⟨c.heap.heapBase, c.heap.heapEnd - c.heap.heapBase, true⟩]) := by
  obtain ⟨layout, related⟩ := run_related cap mapped c run
  obtain ⟨layout', related'⟩ := run_related cap mapped' c' run'
  refine ⟨fun same => ?_, freeAll_perm related, free_after_malloc related,
    empty_single related (run_mapped cap mapped c run).nonempty⟩
  have offsets := offsets_canonical related related' same
  refine ⟨offsets, fun sameBase => ?_⟩
  rw [← chunks_of_offsets related, ← chunks_of_offsets related', offsets, sameBase]

theorem layout_canonical_page : ∃ heap, myMalloc 2 page.heap 100 = some (heap, 4128) ∧
    chunksOf (freeAll heap [4128]) = chunksOf page.heap ∧
    chunksOf page.heap = [⟨4096, 4096, true⟩] := by
  obtain ⟨heap, returned⟩ := page_malloc
  have granted : Run 4096 4096 ⟨heap, [4128]⟩ := .step page_run (.malloc (by decide) returned)
  have released : Run 4096 4096 ⟨myFree heap 4128, []⟩ :=
    .step granted (.free (Or.inr List.mem_cons_self))
  have same := layout_canonical 4096 4096 4096 _ page released page_run
  have single := (layout_canonical 4096 4096 4096 page page page_run page_run).2.2.2 rfl
  have base : page.heap.heapBase = 4096 := rfl
  have size : page.heap.heapEnd - page.heap.heapBase = 4096 := by decide
  rw [size, base] at single
  have nothing : ∀ heap, liveOffsets ⟨heap, []⟩ = [] := fun _ => rfl
  have emptied := (same.1 (fun _ _ => by rw [nothing, page, nothing])).2 rfl
  exact ⟨heap, returned, emptied, single⟩

end LinuxMemory.Freelist
