import LinuxMemory.FreelistRuns

/-!
What a client of the first-fit allocator may rely on in every run: the heap
invariant, the layout as a function of the live chunks, and when and what
`my_malloc` grants.
-/

namespace LinuxMemory.Freelist

open ByteMemory LinkedList Tiling Transition

def chunksFrom (s : Heap) : Nat → Nat → List Chunk
  | 0, _ => []
  | fuel + 1, h =>
      if h < s.heapEnd then
        ⟨h, csz s.memory h, cfree s.memory h⟩ :: chunksFrom s fuel (nextOf s.memory h)
      else []

/-- The walk over the whole heap; every chunk takes at least one byte. -/
def chunksOf (s : Heap) : List Chunk := chunksFrom s (s.heapEnd - s.heapBase) s.heapBase

theorem tiles_length (low high : Nat) (chunks : List Chunk) (tiles : Tiles low chunks high) :
    low + chunks.length ≤ high := by
  induction chunks generalizing low with
  | nil => exact Nat.le_of_eq tiles
  | cons c rest ih =>
      have tail := ih _ tiles.2.2
      have positive := tiles.2.1
      simp only [List.length_cons]
      omega

theorem chunksFrom_tiles (s : Heap) (layout : Layout) (rep : Rep s layout) (low fuel : Nat)
    (chunks : List Chunk) (part : ∀ c ∈ chunks, c ∈ layout.chunks)
    (tiles : Tiles low chunks s.heapEnd) (enough : chunks.length ≤ fuel) :
    chunksFrom s fuel low = chunks := by
  induction chunks generalizing low fuel with
  | nil =>
      have done : low = s.heapEnd := tiles
      cases fuel <;> simp [chunksFrom, done]
  | cons c rest ih =>
      obtain ⟨rfl, positive, tail⟩ := tiles
      have member := part c List.mem_cons_self
      have inside := tiles_le _ _ _ tail
      obtain ⟨less, rfl⟩ : ∃ less, fuel = less + 1 := ⟨fuel - 1, by simp at enough; omega⟩
      rw [chunksFrom, if_pos (by omega), rep_csz layout rep member, rep_cfree layout rep member,
        rep_nextOf layout rep member,
        ih _ less (fun d later => part d (List.mem_cons_of_mem _ later)) tail (by simpa using enough)]

theorem chunksOf_eq (s : Heap) (layout : Layout) (rep : Rep s layout) :
    chunksOf s = layout.chunks := by
  have length := tiles_length _ _ _ rep.tiles
  exact chunksFrom_tiles s layout rep s.heapBase _ layout.chunks (fun _ member => member) rep.tiles
    (by omega)

structure HeapInvariant (s : Heap) (live : List Nat) : Prop where
  tiles : Tiles s.heapBase (chunksOf s) s.heapEnd
  sized : ∀ c ∈ chunksOf s, c.size % 16 = 0 ∧ minChunk ≤ c.size
  footers : ∀ c ∈ chunksOf s,
    loadWord s.memory (ftrOf s.memory c.addr) = sizeFlags s.memory c.addr
  backwards : ∀ c ∈ chunksOf s, nextOf s.memory c.addr ≠ s.heapEnd →
    prevOf s (nextOf s.memory c.addr) = c.addr
  listed : ∃ nodes, DoublyLinked 0 (prevFree s.memory) (nextFree s.memory) 0 s.freeHead nodes ∧
    nodes.Nodup ∧ nodes.Perm (((chunksOf s).filter (·.free)).map (·.addr))
  coalesced : Coalesced (chunksOf s)
  exact : live.Perm (((chunksOf s).filter (fun c => !c.free)).map (·.addr + hdrSz))
  distinct : live.Nodup

theorem related_invariant (cap mapped : Nat) (c : Client) (layout : Layout)
    (related : Related cap mapped c layout) : HeapInvariant c.heap c.live := by
  obtain ⟨rep, consistent, live, -, -⟩ := related
  have walk := chunksOf_eq c.heap layout rep
  constructor
  · rw [walk]
    exact rep.tiles
  · rw [walk, minChunk_eq]
    exact rep.sized
  · rw [walk]
    intro d member
    rw [ftrOf_eq _ d (rep_placed _ _ rep d member) (rep.tagged d member).header,
      (rep.tagged d member).footer, sizeFlags, (rep.tagged d member).header]
  · rw [walk]
    intro d member notLast
    rw [rep_nextOf layout rep member] at notLast ⊢
    obtain ⟨front, rest, shape⟩ := List.append_of_mem member
    obtain ⟨chunks, freeList⟩ := layout
    simp only at shape
    subst shape
    cases rest with
    | nil => exact absurd (tiles_last _ _ front d rep.tiles) notLast
    | cons n others =>
        rw [← tiles_adjacent _ _ front others d n rep.tiles]
        exact rep_prevOf d rep
  · rw [walk]
    exact ⟨layout.freeList, rep.links, freeList_nodup rep, consistent.exact⟩
  · rw [walk]
    exact consistent.coalesced
  · rw [walk, hdrSz_eq]
    exact live
  · apply live.nodup_iff.mpr
    apply List.Nodup.of_map (fun p => p - 32)
    simpa [List.map_map, Function.comp_def] using usedChunks_nodup rep

/-- After every run the heap invariant holds, and the next `my_malloc` returns. -/
theorem heap_invariant (cap mapped : Nat) (c : Client) (run : Run cap mapped c) :
    HeapInvariant c.heap c.live ∧
      ∀ req, ∃ fuel result, myMalloc fuel c.heap req = some result := by
  obtain ⟨layout, related⟩ := run_related cap mapped c run
  refine ⟨related_invariant cap mapped c layout related, fun req => ?_⟩
  obtain ⟨result, returned⟩ := myMalloc_returns c.heap layout related.rep req
    (layout.freeList.length + 1) (Nat.lt_succ_self _)
  exact ⟨_, result, returned⟩

def page : Client := ⟨myInit (fun _ => 0) 4096 4096, []⟩

theorem page_started : Started 4096 4096 page :=
  ⟨by decide, by decide, ⟨by decide, by decide, by decide, by decide⟩, _, rfl⟩

theorem page_run : Run 4096 4096 page := .start page_started

theorem page_malloc : ∃ heap, myMalloc 2 page.heap 100 = some (heap, 4128) := by
  have evaluated : (myMalloc 2 page.heap 100).map (·.2) = some 4128 := by decide +kernel
  obtain ⟨⟨heap, p⟩, returned, rfl⟩ := Option.map_eq_some_iff.mp evaluated
  exact ⟨heap, returned⟩

theorem heap_invariant_page : ∃ heap, myMalloc 2 page.heap 100 = some (heap, 4128) ∧
    HeapInvariant heap [4128] ∧ HeapInvariant (myFree heap 4128) [] := by
  obtain ⟨heap, returned⟩ := page_malloc
  have granted : Run 4096 4096 ⟨heap, [4128]⟩ := .step page_run (.malloc (by decide) returned)
  have released : Run 4096 4096 ⟨myFree heap 4128, []⟩ :=
    .step granted (.free (Or.inr List.mem_cons_self))
  exact ⟨heap, returned, (heap_invariant 4096 4096 _ granted).1, (heap_invariant 4096 4096 _ released).1⟩

/-! What a non-null result of `my_malloc` is. -/

theorem malloc_grants (cap mapped : Nat) (c : Client) (layout : Layout)
    (related : Related cap mapped c layout) (fuel req p : Nat) (heap : Heap)
    (returned : myMalloc fuel c.heap req = some (heap, p)) (granting : p ≠ 0) :
    ∃ layout' d, Related cap mapped ⟨heap, p :: c.live⟩ layout' ∧ p = d.addr + 32 ∧
      d ∈ layout'.chunks ∧ d.free = false ∧ needOf req ≤ d.size ∧ d.size ≤ needOf req + 48 ∧
      (∃ e ∈ layout.chunks, e.free = true ∧ e.addr ≤ d.addr ∧ d.addr + d.size ≤ e.addr + e.size) ∧
      (usedChunks layout'.chunks).Perm (d :: usedChunks layout.chunks) := by
  rcases myMalloc_cases _ _ layout related.rep related.consistent fuel req p returned with
    ⟨rfl, -, -⟩ | ⟨wanted, front, e, rest, shape, free, fits, first, rfl, rfl⟩
  · exact absurd rfl granting
  have result := rep_myMalloc _ layout related.rep related.consistent front rest e shape free req fits
  have bounds := takeChunk_base c.heap e.addr (needOf req)
  have used := usedChunks_takeLayout front rest layout.freeList free (needOf req)
  rw [← shape] at used
  have live := (related.live.cons (e.addr + 32)).trans (used.map (fun d : Chunk => d.addr + 32)).symm
  have member : granted e (needOf req) ∈
      usedChunks (takeLayout front e rest layout.freeList (needOf req)).chunks :=
    used.mem_iff.mpr List.mem_cons_self
  have inside := (mem_usedChunks _).mp member
  have whole := (rep_placed _ layout related.rep e (by simp [shape])).whole
  have size := needOf_whole req
  have fit : needOf req ≤ (granted e (needOf req)).size ∧
      (granted e (needOf req)).size ≤ needOf req + 48 ∧ (granted e (needOf req)).size ≤ e.size := by
    simp only [granted]
    split <;> omega
  refine ⟨_, granted e (needOf req), ⟨result.1, result.2, live, bounds.1.trans related.base,
    bounds.2.trans related.fin⟩, rfl, inside.1, inside.2, fit.1, fit.2.1,
    ⟨e, by simp [shape], free, Nat.le_refl _, ?_⟩, used⟩
  exact Nat.add_le_add_left fit.2.2 e.addr

theorem malloc_refuses (layout : Layout) (s s' : Heap) (rep : Rep s layout)
    (consistent : Consistent layout) (fuel req : Nat) (positive : req ≠ 0)
    (returned : myMalloc fuel s req = some (s', 0)) :
    s' = s ∧ ∀ c ∈ layout.chunks, c.free = true → c.size < needOf req := by
  rcases myMalloc_cases _ _ layout rep consistent fuel req 0 returned with
    ⟨-, same, empty | full⟩ | ⟨-, front, c, rest, shape, free, fits, first, isNull, -⟩
  · exact absurd empty positive
  · exact ⟨same, firstFit_none layout consistent _ full⟩
  · omega

theorem malloc_fits (layout : Layout) (s s' : Heap) (rep : Rep s layout)
    (consistent : Consistent layout) (fuel req p : Nat) (d : Chunk) (member : d ∈ layout.chunks)
    (free : d.free = true) (fits : needOf req ≤ d.size) (positive : req ≠ 0)
    (returned : myMalloc fuel s req = some (s', p)) : p ≠ 0 := by
  rintro rfl
  have small := (malloc_refuses layout s s' rep consistent fuel req positive returned).2 d member free
  omega

/-- What a non-null `p` from `my_malloc(req)` has to be, in the heap `s` after the
call; `others` are the pointers that were live before it. -/
structure RequestHeld (s : Heap) (others : List Nat) (req p : Nat) : Prop where
  aligned : s.heapBase ≤ p ∧ (p - s.heapBase) % 16 = 0
  noWrap : p + req < 2 ^ 64
  chunk : ∃ c ∈ chunksOf s, p = c.addr + hdrSz ∧ p + req ≤ ftrOf s.memory c.addr
  payloads : ∀ q ∈ others, ∀ address, Payload s q address → ¬ (p ≤ address ∧ address < p + req)
  tags : ∀ c ∈ chunksOf s,
    (p + req ≤ c.addr ∨ c.addr + hdrSz ≤ p) ∧
      (p + req ≤ ftrOf s.memory c.addr ∨ ftrOf s.memory c.addr + ftrSz ≤ p)

theorem request_held (cap mapped : Nat) (s : Heap) (others : List Nat) (layout : Layout) (d : Chunk)
    (req : Nat) (related : Related cap mapped ⟨s, (d.addr + 32) :: others⟩ layout)
    (member : d ∈ layout.chunks) (room : req + 48 ≤ d.size) :
    RequestHeld s others req (d.addr + 32) := by
  have walk := chunksOf_eq s layout related.rep
  have placed := rep_placed s layout related.rep d member
  have low : s.heapBase ≤ d.addr := (tiles_bounds _ _ _ related.rep.tiles d member).1
  have baseAligned := base_aligned s layout related.rep
  have footer : ftrOf s.memory d.addr = d.addr + d.size - 16 :=
    ftrOf_eq _ d placed (related.rep.tagged d member).header
  have distinct := (related_invariant cap mapped _ layout related).distinct
  obtain ⟨aligned, whole, large, below⟩ := placed
  constructor
  · exact ⟨by omega, by omega⟩
  · omega
  · exact ⟨d, walk ▸ member, by rw [hdrSz_eq], by omega⟩
  · intro q held address inside clash
    have other : q ∈ (d.addr + 32) :: others := List.mem_cons_of_mem _ held
    obtain ⟨e, member', used, rfl⟩ := live_chunk related q other
    have size := rep_csz layout related.rep member'
    simp only [Payload, hdrSz_eq, ftrSz_eq, Nat.add_sub_cancel, size] at inside
    rcases rep_apart s layout related.rep d e member member' with rfl | apart
    · exact (List.nodup_cons.mp distinct).1 held
    · unfold Segment.Apart at apart
      omega
  · rw [walk]
    intro e member'
    have room' := (rep_placed s layout related.rep e member').room
    rw [ftrOf_eq _ e (rep_placed s layout related.rep e member') (related.rep.tagged e member').header,
      hdrSz_eq, ftrSz_eq]
    rcases rep_apart s layout related.rep d e member member' with rfl | apart
    · omega
    · unfold Segment.Apart at apart
      omega

/-- With a free chunk anywhere, one of the last 63 requests gets a chunk of 64
bytes, whose end the request passes. -/
theorem wrapped_request (cap mapped : Nat) (c : Client) (layout : Layout)
    (related : Related cap mapped c layout) (req : Nat) (large : 2 ^ 64 - 64 < req)
    (request : req < 2 ^ 64) (listed : c.heap.freeHead ≠ 0) :
    ∃ fuel heap p, myMalloc fuel c.heap req = some (heap, p) ∧ p ≠ 0 ∧ 2 ^ 64 ≤ p + req := by
  obtain ⟨⟨heap, p⟩, returned⟩ := myMalloc_returns c.heap layout related.rep req
    (layout.freeList.length + 1) (Nat.lt_succ_self _)
  have inList : c.heap.freeHead ∈ layout.freeList :=
    (linked_head _ _ (doubly_linked_forward _ _ _ related.rep.links)).resolve_left listed
  obtain ⟨d, member, free, -⟩ := (mem_freeAddrs _ _).mp (related.consistent.exact.mem_iff.mp inList)
  have room := (rep_placed _ layout related.rep d member).room
  have need := needOf_wrapped req large request
  have granting := malloc_fits layout _ heap related.rep related.consistent _ req p d member free
    (by omega) (by omega) returned
  obtain ⟨layout', e, related', rfl, member', -⟩ := malloc_grants cap mapped c layout related _ req p
    heap returned granting
  have low : heap.heapBase ≤ e.addr := (tiles_bounds _ _ _ related'.rep.tiles e member').1
  have page : heap.heapBase % 4096 = 0 := related'.rep.aligned
  have valid : 0 < heap.heapBase := related'.rep.valid
  exact ⟨_, heap, _, returned, granting, by omega⟩

/-- `my_malloc` keeps its promise on a request exactly when adding the overhead
does not wrap, or nothing is free. -/
theorem malloc_holds_request_iff (cap mapped : Nat) (c : Client) (run : Run cap mapped c) (req : Nat)
    (request : req < 2 ^ 64) :
    (∀ fuel heap p, myMalloc fuel c.heap req = some (heap, p) → p ≠ 0 → RequestHeld heap c.live req p) ↔
      req ≤ 2 ^ 64 - 64 ∨ c.heap.freeHead = 0 := by
  obtain ⟨layout, related⟩ := run_related cap mapped c run
  constructor
  · intro promise
    by_contra fails
    simp only [not_or] at fails
    obtain ⟨fuel, heap, p, returned, granting, wraps⟩ :=
      wrapped_request cap mapped c layout related req (by omega) request fails.2
    have := (promise fuel heap p returned granting).noWrap
    omega
  · intro condition fuel heap p returned granting
    obtain ⟨layout', d, related', rfl, member, -, fits, -, ⟨e, inside, free, -, -⟩, -⟩ :=
      malloc_grants cap mapped c layout related fuel req p heap returned granting
    have small : req ≤ 2 ^ 64 - 64 := by
      apply condition.resolve_right
      -- a granted chunk was listed, so the list was not empty
      intro isNull
      have listed : e.addr ∈ layout.freeList :=
        related.consistent.exact.mem_iff.mpr ((mem_freeAddrs _ _).mpr ⟨e, inside, free, rfl⟩)
      have empty := (linked_null_iff _ _ (doubly_linked_forward _ _ _ related.rep.links)).mp isNull
      exact List.ne_nil_of_mem listed empty
    have need := needOf_exact req small
    exact request_held cap mapped heap c.live layout' d req related' member (by omega)

theorem malloc_holds_request_page : ∃ heap, myMalloc 2 page.heap 100 = some (heap, 4128) ∧
    RequestHeld heap page.live 100 4128 := by
  obtain ⟨heap, returned⟩ := page_malloc
  have promise := (malloc_holds_request_iff 4096 4096 page page_run 100 (by decide)).mpr
    (Or.inl (by decide))
  exact ⟨heap, returned, promise 2 heap 4128 returned (by decide)⟩

/-- `my_malloc(SIZE_MAX)` succeeds on a fresh heap, with a chunk of 64 bytes. -/
theorem size_max_not_held : ∃ c, Run 4096 4096 c ∧ ∃ fuel heap p,
    myMalloc fuel c.heap (2 ^ 64 - 1) = some (heap, p) ∧ p ≠ 0 ∧
      csz heap.memory (p - hdrSz) = 64 ∧ ¬ RequestHeld heap c.live (2 ^ 64 - 1) p := by
  have evaluated : (myMalloc 2 page.heap (2 ^ 64 - 1)).map (fun result =>
      (result.2, csz result.1.memory (result.2 - hdrSz))) = some (4128, 64) := by decide +kernel
  obtain ⟨⟨heap, p⟩, returned, same⟩ := Option.map_eq_some_iff.mp evaluated
  obtain ⟨rfl, size⟩ := Prod.mk.inj same
  refine ⟨page, page_run, 2, heap, 4128, returned, by decide, size, fun promised => ?_⟩
  have wraps := promised.noWrap
  omega

/-! When `my_malloc` refuses, and what else a grant changes. -/

/-- `need` as a number: the request with its overhead, rounded up to 16. -/
def neededBytes (req : Nat) : Nat := max 64 ((req + 48 + 15) / 16 * 16)

/-- `count` bytes of the heap from `start` that no live chunk meets. -/
def Unused (c : Client) (start count : Nat) : Prop :=
  c.heap.heapBase ≤ start ∧ start + count ≤ c.heap.heapEnd ∧
    ∀ q ∈ c.live, start + count ≤ q - hdrSz ∨
      q - hdrSz + csz c.heap.memory (q - hdrSz) ≤ start

/-- The chunk behind the result `p` of a granted request, and the chunks around it. -/
structure Granted (c : Client) (s : Heap) (need p : Nat) : Prop where
  sized : ∃ d ∈ chunksOf s, d.addr + hdrSz = p ∧ need ≤ d.size ∧ d.size ≤ need + 48 ∧
    ∃ e ∈ chunksOf c.heap, e.free = true ∧ e.addr ≤ d.addr ∧ d.addr + d.size ≤ e.addr + e.size
  others : ∀ q ∈ c.live, ∃ d ∈ chunksOf c.heap, d.addr + hdrSz = q ∧ d.free = false ∧ d ∈ chunksOf s

section Complete
variable {cap mapped : Nat} {c : Client} {layout : Layout}

theorem unused_iff (related : Related cap mapped c layout) (start count : Nat) :
    Unused c start count ↔ c.heap.heapBase ≤ start ∧ start + count ≤ c.heap.heapEnd ∧
      ∀ d ∈ layout.chunks, d.free = false → start + count ≤ d.addr ∨ d.addr + d.size ≤ start := by
  unfold Unused
  rw [hdrSz_eq]
  constructor
  · rintro ⟨lower, upper, outside⟩
    refine ⟨lower, upper, fun d member used => ?_⟩
    have held : d.addr + 32 ∈ c.live :=
      related.live.mem_iff.mpr (List.mem_map_of_mem ((mem_usedChunks _).mpr ⟨member, used⟩))
    have apart := outside _ held
    rwa [Nat.add_sub_cancel, rep_csz layout related.rep member] at apart
  · rintro ⟨lower, upper, outside⟩
    refine ⟨lower, upper, fun q held => ?_⟩
    obtain ⟨d, member, used, rfl⟩ := live_chunk related q held
    rw [Nat.add_sub_cancel, rep_csz layout related.rep member]
    exact outside d member used

/-- A large enough unused stretch lies in one free chunk, since coalescing left
no free neighbours. -/
theorem unused_fits (related : Related cap mapped c layout) (start count : Nat) (positive : 0 < count)
    (unused : Unused c start count) : ∃ d ∈ layout.chunks, d.free = true ∧ count ≤ d.size := by
  obtain ⟨lower, upper, outside⟩ := (unused_iff related start count).mp unused
  obtain ⟨d, member, free, low, high⟩ := free_run_inside _ _ start count _ related.rep.tiles
    related.consistent.coalesced positive lower upper outside
  exact ⟨d, member, free, by omega⟩

theorem free_unused (related : Related cap mapped c layout) (d : Chunk) (member : d ∈ layout.chunks)
    (free : d.free = true) : Unused c d.addr d.size := by
  have bounds := tiles_bounds _ _ _ related.rep.tiles d member
  refine (unused_iff related _ _).mpr ⟨bounds.1, bounds.2.2, fun e inside used => ?_⟩
  rcases rep_apart _ layout related.rep d e member inside with rfl | apart
  · rw [free] at used
    exact Bool.noConfusion used
  · exact apart

theorem malloc_granted (related : Related cap mapped c layout) (fuel req p : Nat) (heap : Heap)
    (returned : myMalloc fuel c.heap req = some (heap, p)) (granting : p ≠ 0) :
    Granted c heap (needOf req) p := by
  obtain ⟨layout', d, related', rfl, member, -, large, small, source, used⟩ :=
    malloc_grants cap mapped c layout related fuel req p heap returned granting
  have walk := chunksOf_eq c.heap layout related.rep
  have walk' := chunksOf_eq heap layout' related'.rep
  constructor
  · rw [walk, walk', hdrSz_eq]
    exact ⟨d, member, rfl, large, small, source⟩
  · rw [walk, walk', hdrSz_eq]
    intro q held
    obtain ⟨e, inside, isUsed, rfl⟩ := live_chunk related q held
    have stays := used.mem_iff.mpr (List.mem_cons_of_mem d ((mem_usedChunks _).mpr ⟨inside, isUsed⟩))
    exact ⟨e, inside, rfl, isUsed, ((mem_usedChunks _).mp stays).1⟩

end Complete

/-- `my_malloc` reports exhaustion only when no unused stretch is large enough,
and touches nothing beyond the chunk it grants. -/
theorem malloc_refuses_iff (cap mapped : Nat) (c : Client) (run : Run cap mapped c) (req : Nat)
    (positive : 0 < req) (small : req ≤ 2 ^ 64 - 64) :
    (∃ fuel result, myMalloc fuel c.heap req = some result) ∧
      ∀ fuel heap p, myMalloc fuel c.heap req = some (heap, p) →
        (p = 0 ↔ ¬ ∃ start count, neededBytes req ≤ count ∧ Unused c start count) ∧
        (p = 0 → heap = c.heap) ∧ (p ≠ 0 → Granted c heap (neededBytes req) p) := by
  obtain ⟨layout, related⟩ := run_related cap mapped c run
  have wanted : req ≠ 0 := Nat.ne_of_gt positive
  have need : needOf req = neededBytes req := needOf_exact req small
  refine ⟨?_, fun fuel heap p returned => ⟨⟨?_, ?_⟩, ?_, ?_⟩⟩
  · obtain ⟨result, returned⟩ := myMalloc_returns c.heap layout related.rep req
      (layout.freeList.length + 1) (Nat.lt_succ_self _)
    exact ⟨_, result, returned⟩
  · rintro rfl ⟨start, count, large, unused⟩
    have room := (needOf_whole req).2
    obtain ⟨d, member, free, fits⟩ := unused_fits related start count (by omega) unused
    have short := (malloc_refuses layout _ heap related.rep related.consistent fuel req wanted
      returned).2 d member free
    omega
  · intro none
    by_contra granting
    obtain ⟨-, d, -, -, -, -, large, -, ⟨e, member, free, low, high⟩, -⟩ :=
      malloc_grants cap mapped c layout related fuel req p heap returned granting
    exact none ⟨e.addr, e.size, by omega, free_unused related e member free⟩
  · rintro rfl
    exact (malloc_refuses layout _ heap related.rep related.consistent fuel req wanted returned).1
  · intro granting
    rw [← need]
    exact malloc_granted related fuel req p heap returned granting

theorem malloc_refuses_page : ∃ heap, myMalloc 2 page.heap 100 = some (heap, 4128) ∧
    Granted page heap 160 4128 := by
  obtain ⟨heap, returned⟩ := page_malloc
  have outcome := (malloc_refuses_iff 4096 4096 page page_run 100 (by decide) (by decide)).2 _ _ _ returned
  exact ⟨heap, returned, outcome.2.2 (by decide)⟩

end LinuxMemory.Freelist
