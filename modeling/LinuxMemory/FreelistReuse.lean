import LinuxMemory.FreelistGuarantees

/-!
What `main` of the first-fit allocator shows with its fourth block: `my_free` leaves the
chunk that it made at the head of the list, so that the next `my_malloc` that fits
there takes it, whatever else is free.
-/

namespace LinuxMemory.Freelist

open ByteMemory LinkedList Tiling Transition

section Release
variable {c : Chunk} {front rest : List Chunk} {freeList : List Nat}

theorem joinNext_grows (free : c.free = true) : (joinNext c rest freeList).1.addr = c.addr ∧
    c.size ≤ (joinNext c rest freeList).1.size ∧ (joinNext c rest freeList).1.free = true := by
  cases rest with
  | nil => exact ⟨rfl, Nat.le_refl _, free⟩
  | cons n others =>
      cases isFree : n.free with
      | false => simp [joinNext, isFree, free]
      | true => simp [joinNext, isFree]

theorem joinPrev_grows (free : c.free = true) :
    (joinPrev front c freeList).2.1.free = true ∧
      ((joinPrev front c freeList).2.1 = c ∨ ∃ before p, front = before ++ [p] ∧ p.free = true ∧
        (joinPrev front c freeList).2.1 = ⟨p.addr, p.size + c.size, true⟩) := by
  rcases List.eq_nil_or_concat front with rfl | ⟨before, p, rfl⟩
  · exact ⟨free, .inl rfl⟩
  · rw [List.concat_eq_append]
    cases isFree : p.free with
    | false => simp [joinPrev, isFree, free]
    | true => exact ⟨by simp [joinPrev, isFree], .inr ⟨before, p, rfl, isFree, by simp [joinPrev, isFree]⟩⟩

end Release

theorem myMalloc_head (fuel : Nat) (s : Heap) (req : Nat) (positive : req ≠ 0) (listed : s.freeHead ≠ 0)
    (fits : needOf req ≤ csz s.memory s.freeHead) : myMalloc (fuel + 1) s req =
      some (takeChunk s s.freeHead (needOf req), Word.add s.freeHead hdrSz) := by
  have found : firstFit (fuel + 1) s (needOf req) = some s.freeHead := by
    rw [firstFit, scan, if_neg listed, if_pos (decide_eq_true fits)]
  rw [myMalloc, if_neg positive, found, Option.map_some, if_neg listed]

/-- In every run, what `my_free` releases is the next block given out: alone or with
its free neighbours it makes the chunk at the head of the list, which covers it and
serves the first request that fits. -/
theorem freed_reused (cap mapped : Nat) (c : Client) (run : Run cap mapped c) (p : Nat)
    (held : p ∈ c.live) : ∃ d ∈ chunksOf (myFree c.heap p), d.free = true ∧
      (myFree c.heap p).freeHead = d.addr ∧ d.addr ≤ p - hdrSz ∧
      p - hdrSz + csz c.heap.memory (p - hdrSz) ≤ d.addr + d.size ∧
      (d.addr = p - hdrSz ∨
        ∃ e ∈ chunksOf c.heap, e.free = true ∧ e.addr + e.size = p - hdrSz ∧ d.addr = e.addr) ∧
      ∀ fuel req, req ≠ 0 → needOf req ≤ d.size →
        ∃ heap, myMalloc (fuel + 1) (myFree c.heap p) req = some (heap, d.addr + hdrSz) := by
  obtain ⟨⟨chunks, freeList⟩, related⟩ := run_related cap mapped c run
  obtain ⟨b, member, used, rfl⟩ := live_chunk related p held
  have walk := chunksOf_eq c.heap _ related.rep
  have size := rep_csz _ related.rep member
  obtain ⟨front, rest, shape⟩ := List.append_of_mem member
  simp only at shape
  subst shape
  have freed := rep_myFree c.heap related.rep used related.consistent
  have walk' := chunksOf_eq _ _ freed
  generalize joined : joinNext { b with free := true } rest freeList = next at freed
  obtain ⟨n, others, left⟩ := next
  obtain ⟨start, larger, isFree⟩ : n.addr = b.addr ∧ b.size ≤ n.size ∧ n.free = true := by
    have grown := @joinNext_grows { b with free := true } rest freeList rfl
    rwa [joined] at grown
  obtain ⟨free, shape⟩ := @joinPrev_grows n front left isFree
  have layout : releaseLayout front b rest freeList =
      ⟨(joinPrev front n left).1 ++ (joinPrev front n left).2.1 :: others,
        (joinPrev front n left).2.1.addr :: (joinPrev front n left).2.2⟩ := by
    rw [releaseLayout, joined]
  generalize (joinPrev front n left).2.1 = d at free shape layout
  rw [layout] at freed walk'
  have inside : d ∈ (joinPrev front n left).1 ++ d :: others := by simp
  have head : (myFree c.heap (b.addr + 32)).freeHead = d.addr :=
    (doubly_linked_forward _ _ _ freed.links).1
  have placed := rep_placed _ _ freed d inside
  rw [hdrSz_eq, Nat.add_sub_cancel, size, walk, walk']
  have covers : d.addr ≤ b.addr ∧ b.addr + b.size ≤ d.addr + d.size ∧
      (d.addr = b.addr ∨ ∃ e ∈ front ++ b :: rest, e.free = true ∧ e.addr + e.size = b.addr ∧
        d.addr = e.addr) := by
    rcases shape with rfl | ⟨before, e, rfl, isFree', rfl⟩
    · exact ⟨Nat.le_of_eq start, by omega, .inl start⟩
    · have adjacent : b.addr = e.addr + e.size :=
        tiles_adjacent _ _ before rest e b (by simpa using related.rep.tiles)
      dsimp only
      exact ⟨by omega, by omega, .inr ⟨e, by simp, isFree', adjacent.symm, rfl⟩⟩
  refine ⟨d, inside, free, head, covers.1, covers.2.1, covers.2.2, ?_⟩
  intro fuel req positive fits
  have room := placed.room
  have below := placed.below
  have payload : Word.add d.addr 32 = d.addr + 32 := Word.add_exact _ _ (by omega)
  have granted := myMalloc_head fuel (myFree c.heap (b.addr + 32)) req positive
    (by rw [head]; exact chunk_not_null freed d inside)
    (by rw [head, rep_csz _ freed inside]; exact fits)
  rw [head, hdrSz_eq, payload] at granted
  exact ⟨_, granted⟩

theorem freed_reused_page : ∃ heap d, myMalloc 2 page.heap 100 = some (heap, 4128) ∧
    d ∈ chunksOf (myFree heap 4128) ∧ ∀ fuel req, req ≠ 0 → needOf req ≤ d.size →
      ∃ heap', myMalloc (fuel + 1) (myFree heap 4128) req = some (heap', d.addr + hdrSz) := by
  obtain ⟨heap, returned⟩ := page_malloc
  have granted : Run 4096 4096 ⟨heap, [4128]⟩ := .step page_run (.malloc (by decide) returned)
  obtain ⟨d, member, _, _, _, _, _, again⟩ := freed_reused 4096 4096 _ granted 4128 List.mem_cons_self
  exact ⟨heap, d, returned, member, again⟩

end LinuxMemory.Freelist
