import LinuxMemory.FreelistCanonical
import LinuxMemory.Ownership

/-!
The payload of a live chunk is its client's. `my_malloc` and `my_free` write
headers, footers and the links of free chunks; all of these lie outside the
payloads of the other live chunks, also the footer at the far end of a merged
chunk and the links of list neighbours anywhere in the heap.
-/

namespace LinuxMemory.Freelist

open ByteMemory LinkedList Tiling Transition Ownership

def SamePayload (d : Chunk) (m m' : Memory) : Prop :=
  ∀ byte, d.addr + 32 ≤ byte → byte < d.addr + d.size - 16 → m' byte = m byte

theorem samePayload_refl (d : Chunk) (m : Memory) : SamePayload d m m := fun _ _ _ => rfl

theorem samePayload_trans (d : Chunk) (m m' m'' : Memory) (left : SamePayload d m m')
    (right : SamePayload d m' m'') : SamePayload d m m'' :=
  fun byte low high => (right byte low high).trans (left byte low high)

theorem samePayload_store (d : Chunk) (m : Memory) (address value : Nat)
    (outside : address + 8 ≤ d.addr + 32 ∨ d.addr + d.size - 16 ≤ address) :
    SamePayload d m (storeWord m address value) := by
  intro byte low high
  apply store_outside
  omega

/-! One operation of the allocator. -/

section Operations
variable {s : Heap} {layout : Layout} {front rest : List Chunk} {c d : Chunk} {freeList : List Nat}

theorem link_outside (rep : Rep s layout) (node offset : Nat) (valid : Node layout node)
    (notNull : node ≠ 0) (inHeader : offset + 8 ≤ 32) (member : d ∈ layout.chunks) :
    node + offset + 8 ≤ d.addr + 32 ∨ d.addr + d.size - 16 ≤ node + offset := by
  obtain ⟨e, inside, rfl⟩ := valid.resolve_left notNull
  have room := (rep_placed s layout rep d member).room
  have room' := (rep_placed s layout rep e inside).room
  rcases rep_apart s layout rep d e member inside with rfl | apart
  · omega
  · unfold Segment.Apart at apart
    omega

theorem samePayload_linkNext (rep : Rep s layout) (m : Memory) (node value : Nat)
    (valid : Node layout node) (member : d ∈ layout.chunks) :
    SamePayload d m (linkNext m node value) := by
  unfold linkNext
  by_cases null : node = 0
  · rw [if_neg (by simpa using null)]
    exact samePayload_refl d m
  · rw [if_pos null]
    exact samePayload_store d m _ value (link_outside rep node 16 valid null (by decide) member)

theorem samePayload_linkPrev (rep : Rep s layout) (m : Memory) (node value : Nat)
    (valid : Node layout node) (member : d ∈ layout.chunks) :
    SamePayload d m (linkPrev m node value) := by
  unfold linkPrev
  by_cases null : node = 0
  · rw [if_neg (by simpa using null)]
    exact samePayload_refl d m
  · rw [if_pos null]
    exact samePayload_store d m _ value (link_outside rep node 8 valid null (by decide) member)

theorem samePayload_flInsert (rep : Rep s layout) (inside : c ∈ layout.chunks)
    (member : d ∈ layout.chunks) : SamePayload d s.memory (flInsert s c.addr).memory := by
  have node : Node layout c.addr := Or.inr ⟨c, inside, rfl⟩
  have first := samePayload_linkPrev rep s.memory c.addr 0 node member
  have second := samePayload_linkNext rep (linkPrev s.memory c.addr 0) c.addr s.freeHead node member
  have third := samePayload_linkPrev rep (linkNext (linkPrev s.memory c.addr 0) c.addr s.freeHead)
    s.freeHead c.addr (head_node rep) member
  rw [flInsert_eq s c.addr (chunk_not_null rep c inside)]
  exact samePayload_trans d _ _ _ (samePayload_trans d _ _ _ first second) third

theorem samePayload_flRemove (rep : Rep s layout) (a : Nat) (listed : a ∈ layout.freeList)
    (member : d ∈ layout.chunks) : SamePayload d s.memory (flRemove s a).memory := by
  obtain ⟨prevNode, nextNode, -⟩ := neighbour_nodes s layout rep a listed
  have first := samePayload_linkNext rep s.memory (prevFree s.memory a) (nextFree s.memory a) prevNode member
  have second := samePayload_linkPrev rep (linkNext s.memory (prevFree s.memory a) (nextFree s.memory a))
    (nextFree s.memory a) (prevFree s.memory a) nextNode member
  have memory : (flRemove s a).memory = linkPrev
      (linkNext s.memory (prevFree s.memory a) (nextFree s.memory a))
      (nextFree s.memory a) (prevFree s.memory a) := by
    rw [flRemove_links s layout rep a listed]
  rw [memory]
  exact samePayload_trans d _ _ _ first second

theorem samePayload_setSize (s : Heap) (placed : Placed c) (apart : c.Apart d) :
    SamePayload d s.memory (setSize s c.addr c.size c.free).memory := by
  have room := placed.room
  unfold Segment.Apart at apart
  rw [setSize_eq s c placed]
  have header := samePayload_store d s.memory c.addr (tag c) (by omega)
  have footer := samePayload_store d (storeWord s.memory c.addr (tag c)) (c.addr + c.size - 16) (tag c)
    (by omega)
  exact samePayload_trans d _ _ _ header footer

theorem others_apart (rep : Rep s ⟨front ++ c :: rest, freeList⟩) (member : d ∈ front ++ rest) :
    d ∈ front ++ c :: rest ∧ c.Apart d := by
  have inside : d ∈ front ++ c :: rest := by
    rw [List.mem_append] at member ⊢
    exact member.imp_right (List.mem_cons_of_mem _)
  refine ⟨inside, (rep_apart s _ rep c d (by simp) inside).resolve_left ?_⟩
  rintro rfl
  exact tiles_other_addr _ _ front rest c c rep.tiles member rfl

theorem samePayload_mark (rep : Rep s ⟨front ++ c :: rest, freeList⟩) (free : Bool)
    (member : d ∈ front ++ rest) : SamePayload d s.memory (setSize s c.addr c.size free).memory := by
  have placed := rep_placed s _ rep c (by simp)
  have marked : Placed { c with free := free } :=
    ⟨placed.aligned, placed.whole, placed.room, placed.below⟩
  exact samePayload_setSize (c := { c with free := free }) s marked (others_apart rep member).2

theorem samePayload_merge (n : Chunk) (rep : Rep s ⟨front ++ c :: n :: rest, freeList⟩)
    (member : d ∈ front ++ rest) : SamePayload d s.memory
      (setSize s c.addr (Word.add (csz s.memory c.addr) (csz s.memory n.addr)) true).memory := by
  obtain ⟨merged, adjacent, size⟩ := placed_merge n rep
  have left : d ∈ front ++ n :: rest := by
    rw [List.mem_append] at member ⊢
    exact member.imp_right (List.mem_cons_of_mem _)
  obtain ⟨inside, apart⟩ := others_apart rep left
  have shape : front ++ c :: n :: rest = (front ++ [c]) ++ n :: rest := by simp
  have room := (rep_placed s _ rep d inside).room
  rw [shape] at rep
  have right : d ∈ front ++ [c] ++ rest := by
    rw [List.mem_append] at member ⊢
    exact member.imp_left (List.mem_append_left _)
  have apart' := (others_apart rep right).2
  rw [size]
  apply samePayload_setSize (c := ⟨c.addr, c.size + n.size, true⟩) s merged
  unfold Segment.Apart at apart apart' ⊢
  simp only
  omega

theorem samePayload_split (rep : Rep s ⟨front ++ c :: rest, freeList⟩) (need : Nat)
    (whole : need % 16 = 0) (room : 64 ≤ need) (enough : 64 ≤ c.size - need)
    (member : d ∈ front ++ rest) : SamePayload d s.memory
      (setSize (setSize s c.addr need false) (c.addr + need) (c.size - need) true).memory := by
  obtain ⟨first, second⟩ := placed_split rep need whole room enough
  have apart := (others_apart rep member).2
  unfold Segment.Apart at apart
  have low := samePayload_setSize (c := ⟨c.addr, need, false⟩) (d := d) s first
    (by unfold Segment.Apart; simp only; omega)
  have high := samePayload_setSize (c := ⟨c.addr + need, c.size - need, true⟩) (d := d)
    (setSize s c.addr need false) second (by unfold Segment.Apart; simp only; omega)
  exact samePayload_trans d _ _ _ low high

theorem samePayload_takeChunk (rep : Rep s ⟨front ++ c :: rest, freeList⟩) (need : Nat)
    (listed : c.addr ∈ freeList) (whole : need % 16 = 0) (room : 64 ≤ need) (fits : need ≤ c.size)
    (member : d ∈ front ++ rest) : SamePayload d s.memory (takeChunk s c.addr need).memory := by
  have removed := rep_flRemove s _ rep c.addr listed
  have first := samePayload_flRemove rep c.addr listed (others_apart rep member).1
  have below := (rep_placed s _ rep c (by simp)).below
  have size := rep_csz (c := c) _ removed (by simp)
  have leftover : Word.sub c.size need = c.size - need := Word.sub_exact _ _ fits (by omega)
  unfold takeChunk
  simp only [size, leftover, minChunk_eq, ge_iff_le]
  split
  · next enough =>
    obtain ⟨remainder, cut⟩ := rep_split removed need whole room enough
    have second := samePayload_split removed need whole room enough member
    have still : d ∈ front ++ [⟨c.addr, need, false⟩, ⟨c.addr + need, c.size - need, true⟩] ++ rest := by
      rcases List.mem_append.mp member with early | late
      · simp [early]
      · simp [late]
    have third := samePayload_flInsert (c := ⟨c.addr + need, c.size - need, true⟩) cut (by simp) still
    rw [remainder]
    exact samePayload_trans d _ _ _ (samePayload_trans d _ _ _ first second) third
  · exact samePayload_trans d _ _ _ first (samePayload_mark removed false member)

theorem samePayload_coalesceNext (rep : Rep s ⟨front ++ c :: rest, freeList⟩)
    (listed : ∀ n ∈ rest, n.free = true → n.addr ∈ freeList) (used : d.free = false)
    (member : d ∈ front ++ rest) : SamePayload d s.memory (coalesceNext s c.addr).memory := by
  rcases coalesceNext_cases rep with ⟨same, -⟩ | ⟨n, others, rfl, isFree, merged, -⟩
  · rw [same]
    exact samePayload_refl d _
  · have isListed := listed n (by simp) isFree
    have removed := rep_flRemove s _ rep n.addr isListed
    have first := samePayload_flRemove rep n.addr isListed (others_apart rep member).1
    have different : d ≠ n := by
      rintro rfl
      simp [used] at isFree
    have stays : d ∈ front ++ others := by simpa [different] using member
    rw [merged]
    exact samePayload_trans d _ _ _ first (samePayload_merge n removed stays)

theorem samePayload_coalescePrev (rep : Rep s ⟨front ++ c :: rest, freeList⟩)
    (listed : ∀ p ∈ front, p.free = true → p.addr ∈ freeList) (used : d.free = false)
    (member : d ∈ front ++ rest) : SamePayload d s.memory (coalescePrev s c.addr).1.memory := by
  rcases coalescePrev_cases rep with ⟨same, -⟩ | ⟨before, p, rfl, isFree, merged, -⟩
  · rw [same]
    exact samePayload_refl d _
  · have isListed := listed p (by simp) isFree
    have inside := (others_apart rep member).1
    have shape : before ++ [p] ++ c :: rest = before ++ p :: c :: rest := by simp
    rw [shape] at rep inside
    have removed := rep_flRemove s _ rep p.addr isListed
    have first := samePayload_flRemove rep p.addr isListed inside
    have different : d ≠ p := by
      rintro rfl
      simp [used] at isFree
    have stays : d ∈ before ++ rest := by simpa [different] using member
    rw [merged]
    exact samePayload_trans d _ _ _ first (samePayload_merge c removed stays)

theorem stays_joinNext (late : d ∈ rest) (isLive : d.free = false) :
    d ∈ (joinNext c rest freeList).2.1 := by
  have listed : d ∈ usedChunks (joinNext c rest freeList).2.1 := by
    rw [usedChunks_joinNext]
    exact (mem_usedChunks _).mpr ⟨late, isLive⟩
  exact ((mem_usedChunks _).mp listed).1

theorem stays_joinPrev (early : d ∈ front) (isLive : d.free = false) :
    d ∈ (joinPrev front c freeList).1 := by
  have listed : d ∈ usedChunks (joinPrev front c freeList).1 := by
    rw [usedChunks_joinPrev]
    exact (mem_usedChunks _).mpr ⟨early, isLive⟩
  exact ((mem_usedChunks _).mp listed).1

theorem samePayload_myFree (rep : Rep s ⟨front ++ c :: rest, freeList⟩) (used : c.free = false)
    (consistent : Consistent ⟨front ++ c :: rest, freeList⟩) (isLive : d.free = false)
    (member : d ∈ front ++ rest) : SamePayload d s.memory (myFree s (c.addr + 32)).memory := by
  obtain ⟨marked, next, prev, stages⟩ := myFree_stages s rep used consistent
  have first : SamePayload d s.memory marked.memory := by
    rw [stages.first]
    exact samePayload_mark rep true member
  have second : SamePayload d marked.memory next.memory := by
    rw [stages.second]
    exact samePayload_coalesceNext (c := { c with free := true }) stages.repMarked stages.listed isLive member
  generalize joined : joinNext { c with free := true } rest freeList = next' at stages
  have behind : d ∈ front ∨ d ∈ next'.2.1 := by
    rw [← joined]
    exact (List.mem_append.mp member).imp_right fun late => stays_joinNext late isLive
  have third : SamePayload d next.memory prev.memory := by
    rw [stages.third, ← stages.sameAddr]
    exact samePayload_coalescePrev stages.repNext stages.listed' isLive (List.mem_append.mpr behind)
  have around : d ∈ (joinPrev front next'.1 next'.2.2).1 ∨ d ∈ next'.2.1 :=
    behind.imp_left fun early => stays_joinPrev early isLive
  have last : SamePayload d prev.memory (myFree s (c.addr + 32)).memory := by
    rw [stages.last]
    exact samePayload_flInsert stages.repPrev (by simp)
      (List.mem_append.mpr (around.imp_right (List.mem_cons_of_mem _)))
  exact samePayload_trans d _ _ _ (samePayload_trans d _ _ _ first second)
    (samePayload_trans d _ _ _ third last)

end Operations

/-! A run: the heap, and what the clients hold with the values they have written. -/

structure Owner where
  heap : Heap
  held : Holdings

def Owner.client (o : Owner) : Client := ⟨o.heap, o.held.blocks.map (·.1)⟩

/-- The requests stop at `2 ^ 64 - 64`: above, the chunk is smaller than the block. -/
inductive OwnerStep : Owner → Event → Owner → Prop where
  | malloc {o : Owner} {fuel req p : Nat} {heap : Heap} (request : req ≤ 2 ^ 64 - 64)
      (returned : myMalloc fuel o.heap req = some (heap, p)) :
      OwnerStep o (.malloc req p) ⟨heap, if p = 0 then o.held else o.held.take (p, req)⟩
  | free {o : Owner} {p req : Nat} (held : (p, req) ∈ o.held.blocks) :
      OwnerStep o (.free p) ⟨myFree o.heap p, o.held.drop (p, req)⟩
  | write {o : Owner} {p req address : Nat} {value : UInt8} (held : (p, req) ∈ o.held.blocks)
      (inside : Inside (p, req) address) :
      OwnerStep o (.write address value) ⟨{ o.heap with memory := poke o.heap.memory address value },
        o.held.write address value⟩

def ownerSystem (cap mapped : Nat) : System Owner Event :=
  ⟨fun o => Started cap mapped o.client ∧ o.held = Holdings.nothing, OwnerStep⟩

inductive Request where
  | malloc (req : Nat)
  | free (p : Nat)

def request : Event → Option Request
  | .malloc req _ => some (.malloc req)
  | .free p => some (.free p)
  | .write _ _ => none

def InChunk (layout : Layout) (block : Block) : Prop :=
  ∃ d ∈ layout.chunks, d.free = false ∧ block.1 = d.addr + 32 ∧ block.2 + 48 ≤ d.size

structure Owned (cap mapped : Nat) (o : Owner) (layout : Layout) : Prop where
  related : Related cap mapped o.client layout
  inChunk : ∀ block ∈ o.held.blocks, InChunk layout block

section Owned
variable {cap mapped : Nat} {o : Owner} {layout layout' : Layout}

theorem inChunk_used (block : Block) (inChunk : InChunk layout block)
    (kept : ∀ d ∈ usedChunks layout.chunks, d.addr + 32 = block.1 → d ∈ usedChunks layout'.chunks) :
    InChunk layout' block := by
  obtain ⟨d, member, used, same, room⟩ := inChunk
  have still := kept d ((mem_usedChunks _).mpr ⟨member, used⟩) same.symm
  obtain ⟨member', -⟩ := (mem_usedChunks _).mp still
  exact ⟨d, member', used, same, room⟩

theorem untouched_payload (m m' : Memory) (blocks : List Block)
    (inChunk : ∀ block ∈ blocks, InChunk layout block)
    (same : ∀ d ∈ layout.chunks, d.free = false → ∀ block ∈ blocks, block.1 = d.addr + 32 →
      SamePayload d m m') : Untouched m m' blocks := by
  intro block member address inside
  obtain ⟨d, listed, used, isAddress, room⟩ := inChunk block member
  obtain ⟨low, high⟩ := inside
  exact same d listed used block member isAddress address (by omega) (by omega)

theorem owned_started (started : Started cap mapped o.client) (none : o.held = Holdings.nothing) :
    Owned cap mapped o ⟨[whole mapped cap], [mapped]⟩ := by
  refine ⟨related_started o.client started, ?_⟩
  rw [none]
  simp [Holdings.nothing]

theorem owned_distinct (owned : Owned cap mapped o layout) : (o.held.blocks.map (·.1)).Nodup :=
  (related_invariant cap mapped _ layout owned.related).distinct

theorem granted_room (layout : Layout) (req p : Nat) (request : req ≤ 2 ^ 64 - 64) (valid : p ≠ 0)
    (next : LayoutStep layout (.malloc req p) layout') : InChunk layout' (p, req) := by
  cases next with
  | refuse _ => exact absurd rfl valid
  | @grant _ front rest c wanted shape free fits first =>
      have used := usedChunks_takeLayout front rest layout.freeList free (needOf req)
      have member : granted c (needOf req) ∈
          usedChunks (takeLayout front c rest layout.freeList (needOf req)).chunks :=
        used.mem_iff.mpr List.mem_cons_self
      obtain ⟨listed, isUsed⟩ := (mem_usedChunks _).mp member
      refine ⟨granted c (needOf req), listed, isUsed, rfl, ?_⟩
      have exact := needOf_exact req request
      unfold granted
      simp only
      split <;> omega

theorem used_after_malloc (req p : Nat) (next : LayoutStep layout (.malloc req p) layout') :
    usedChunks layout.chunks ⊆ usedChunks layout'.chunks := by
  cases next with
  | refuse _ => exact fun d member => member
  | @grant _ front rest c wanted shape free fits first =>
      intro d member
      rw [shape] at member
      exact (usedChunks_takeLayout front rest layout.freeList free (needOf req)).mem_iff.mpr
        (List.mem_cons_of_mem _ member)

theorem samePayload_myMalloc (related : Related cap mapped o.client layout) (fuel req p : Nat)
    (heap : Heap) (returned : myMalloc fuel o.heap req = some (heap, p)) (d : Chunk)
    (member : d ∈ layout.chunks) (isLive : d.free = false) :
    SamePayload d o.heap.memory heap.memory := by
  have consistent := related.consistent
  rcases myMalloc_cases _ _ layout related.rep consistent fuel req p returned with
    ⟨-, rfl, -⟩ | ⟨-, front, c, rest, shape, free, fits, -, -, rfl⟩
  · exact samePayload_refl d _
  · have size := needOf_whole req
    have different : d ≠ c := by
      rintro rfl
      simp [isLive] at free
    have listed : c.addr ∈ layout.freeList :=
      consistent.exact.mem_iff.mpr ((mem_freeAddrs _ _).mpr ⟨c, by simp [shape], free, rfl⟩)
    have rep := related.rep
    obtain ⟨chunks, freeList⟩ := layout
    simp only at shape
    subst shape
    have other : d ∈ front ++ rest := by simpa [different] using member
    exact samePayload_takeChunk rep _ listed size.1 size.2 fits other

theorem samePayload_free (related : Related cap mapped o.client layout) (p : Nat)
    (held : p ∈ o.client.live) (d : Chunk) (member : d ∈ layout.chunks) (isLive : d.free = false)
    (other : d.addr + 32 ≠ p) : SamePayload d o.heap.memory (myFree o.heap p).memory := by
  obtain ⟨c, inside, used, rfl⟩ := live_chunk related p held
  obtain ⟨front, rest, shape⟩ := List.append_of_mem inside
  have rep := related.rep
  have consistent := related.consistent
  obtain ⟨chunks, freeList⟩ := layout
  simp only at shape
  subst shape
  have different : d ≠ c := fun same => other (by rw [same])
  exact samePayload_myFree rep used consistent isLive (by simpa [different] using member)

theorem owned_malloc (owned : Owned cap mapped o layout) (fuel req p : Nat) (heap : Heap)
    (small : req ≤ 2 ^ 64 - 64) (returned : myMalloc fuel o.heap req = some (heap, p)) :
    ∃ layout', LayoutStep layout (.malloc req p) layout' ∧
      Owned cap mapped ⟨heap, if p = 0 then o.held else o.held.take (p, req)⟩ layout' ∧
      Untouched o.heap.memory heap.memory o.held.blocks := by
  obtain ⟨layout', next, related⟩ := related_malloc owned.related fuel req p heap returned
  have still : ∀ block ∈ o.held.blocks, InChunk layout' block := fun block member =>
    inChunk_used block (owned.inChunk block member) fun d listed _ => used_after_malloc req p next listed
  refine ⟨layout', next, ?_, ?_⟩
  · by_cases null : p = 0
    · rw [if_pos null] at related ⊢
      exact ⟨related, still⟩
    · rw [if_neg null] at related ⊢
      refine ⟨related, fun block member => ?_⟩
      rcases List.mem_cons.mp member with rfl | older
      · exact granted_room layout req p small null next
      · exact still block older
  · apply untouched_payload _ _ _ owned.inChunk
    intro d member isLive _ _ _
    exact samePayload_myMalloc owned.related fuel req p heap returned d member isLive

theorem owned_free (owned : Owned cap mapped o layout) (p req : Nat)
    (held : (p, req) ∈ o.held.blocks) :
    ∃ layout', LayoutStep layout (.free p) layout' ∧
      Owned cap mapped ⟨myFree o.heap p, o.held.drop (p, req)⟩ layout' ∧
      Untouched o.heap.memory (myFree o.heap p).memory (o.held.drop (p, req)).blocks := by
  have distinct := owned_distinct owned
  have isLive : p ∈ o.client.live := List.mem_map.mpr ⟨_, held, rfl⟩
  obtain ⟨layout', next, related⟩ := related_free owned.related p (Or.inr isLive)
  have others : ∀ block ∈ (o.held.drop (p, req)).blocks, InChunk layout block :=
    fun block listed => owned.inChunk block (List.mem_of_mem_erase listed)
  refine ⟨layout', next, ⟨?_, ?_⟩, ?_⟩
  · simp only [Owner.client, Holdings.drop, erase_address distinct held]
    exact related
  · intro block listed
    apply inChunk_used block (others block listed)
    intro d used same
    have apart := address_dropped distinct held listed
    exact (used_after_free owned.related p next d).mpr ⟨used, same ▸ apart⟩
  · apply untouched_payload _ _ _ others
    intro d member used block listed same
    have apart := address_dropped distinct held listed
    exact samePayload_free owned.related p isLive d member used (same ▸ apart)

theorem owned_write (owned : Owned cap mapped o layout) (p req address : Nat) (value : UInt8)
    (held : (p, req) ∈ o.held.blocks) (inside : Inside (p, req) address) :
    Owned cap mapped ⟨{ o.heap with memory := poke o.heap.memory address value },
      o.held.write address value⟩ layout := by
  refine ⟨related_write owned.related p address value (List.mem_map.mpr ⟨_, held, rfl⟩) ?_,
    owned.inChunk⟩
  obtain ⟨d, member, used, same, room⟩ := owned.inChunk _ held
  obtain ⟨low, high⟩ := inside
  simp only at same room low high
  have size := rep_csz layout owned.related.rep member
  have header : p - hdrSz = d.addr := by
    rw [hdrSz_eq]
    omega
  refine ⟨low, ?_⟩
  rw [header, hdrSz_eq, ftrSz_eq]
  have client : csz o.client.heap.memory d.addr = d.size := size
  rw [client]
  omega

end Owned

theorem owner_owned (cap mapped : Nat) (o : Owner) (run : Reachable (ownerSystem cap mapped) o) :
    (∃ layout, Owned cap mapped o layout) ∧ Kept o.heap.memory o.held := by
  refine reachable_kept (ownerSystem cap mapped) (·.heap.memory) (·.held)
    (fun o => ∃ layout, Owned cap mapped o layout) ?_ ?_ o run
  · rintro first ⟨started, none⟩
    exact ⟨⟨_, owned_started started none⟩, none⟩
  · rintro before event after ⟨layout, owned⟩ next
    cases next with
    | @malloc fuel req p heap small returned =>
        obtain ⟨layout', -, owned', same⟩ := owned_malloc owned fuel req p heap small returned
        exact ⟨⟨layout', owned'⟩, change_alloc _ _ _ p req same⟩
    | @free p req held =>
        obtain ⟨layout', -, owned', same⟩ := owned_free owned p req held
        exact ⟨⟨layout', owned'⟩, .drop same⟩
    | @write p req address value held inside =>
        exact ⟨⟨layout, owned_write owned p req address value held inside⟩, .write⟩

/-- Two runs over one layout: the bytes in the live blocks are no part of it. -/
theorem layout_lockstep (cap mapped : Nat) : Lockstep (ownerSystem cap mapped) request
    fun left right => ∃ layout, Owned cap mapped left layout ∧ Owned cap mapped right layout := by
  constructor
  · rintro left right ⟨layout, owned, owned'⟩
    exact ⟨layout, owned', owned⟩
  · rintro left right event after ⟨layout, owned, owned'⟩ quiet next
    cases next with
    | malloc _ _ => cases quiet
    | free _ => cases quiet
    | write held inside => exact ⟨layout, owned_write owned _ _ _ _ held inside, owned'⟩
  · rintro left right event event' after after' ⟨layout, owned, owned'⟩ same asked next next'
    have tiles := owned.related.rep.tiles
    cases next with
    | @malloc fuel req p heap small returned =>
        cases next' with
        | @malloc fuel' req' p' heap' small' returned' =>
            obtain rfl : req = req' := by simpa [request] using same
            obtain ⟨next, step, result, -⟩ := owned_malloc owned fuel req p heap small returned
            obtain ⟨next', step', result', -⟩ :=
              owned_malloc owned' fuel' req p' heap' small' returned'
            obtain ⟨rfl, rfl⟩ := layoutStep_malloc _ _ layout next next' req p p' tiles step step'
            exact ⟨rfl, next, result, result'⟩
        | free _ => cases same
        | write _ _ => cases same
    | @free p req held =>
        cases next' with
        | @free p' req' held' =>
            obtain rfl : p = p' := by simpa [request] using same
            obtain ⟨next, step, result, -⟩ := owned_free owned p req held
            obtain ⟨next', step', result', -⟩ := owned_free owned' p req' held'
            obtain rfl := layoutStep_free _ _ layout next next' p tiles step step'
            exact ⟨rfl, next, result, result'⟩
        | malloc _ _ => cases same
        | write _ _ => cases same
    | write _ _ => cases asked

/-- A byte that was written in a live block keeps its value until the block is
freed or the byte is written again, no call touches a live block other than the
one it frees, and the pointers returned depend on the calls alone. -/
theorem payload_kept (cap mapped : Nat) :
    (∀ o, Reachable (ownerSystem cap mapped) o → Kept o.heap.memory o.held ∧
      (∀ fuel req p heap, req ≤ 2 ^ 64 - 64 → myMalloc fuel o.heap req = some (heap, p) →
        Untouched o.heap.memory heap.memory o.held.blocks) ∧
      ∀ p req, (p, req) ∈ o.held.blocks →
        Untouched o.heap.memory (myFree o.heap p).memory (o.held.drop (p, req)).blocks) ∧
    ∀ first first' last last' events events', (ownerSystem cap mapped).start first →
      (ownerSystem cap mapped).start first' → Path (ownerSystem cap mapped) first events last →
      Path (ownerSystem cap mapped) first' events' last' →
      events.filterMap request = events'.filterMap request →
      events.filter (fun event => (request event).isSome) =
        events'.filter (fun event => (request event).isSome) := by
  constructor
  · intro o run
    obtain ⟨⟨layout, owned⟩, kept⟩ := owner_owned cap mapped o run
    refine ⟨kept, ?_, ?_⟩
    · intro fuel req p heap small returned
      obtain ⟨layout', -, -, same⟩ := owned_malloc owned fuel req p heap small returned
      exact same
    · intro p req held
      obtain ⟨layout', -, -, same⟩ := owned_free owned p req held
      exact same
  · intro first first' last last' events events' started started' path path' same
    have twins : ∃ layout, Owned cap mapped first layout ∧ Owned cap mapped first' layout :=
      ⟨_, owned_started started.1 started.2, owned_started started'.1 started'.2⟩
    exact (lockstep_events (layout_lockstep cap mapped) _ _ _ _ _ _ twins path path' same).1

theorem payload_kept_page : ∃ heap heap' p, myMalloc 2 page.heap 100 = some (heap, 4128) ∧
    myMalloc 2 { heap with memory := poke heap.memory 4227 7 } 200 = some (heap', p) ∧
      heap'.memory 4227 = 7 ∧ (myFree heap' p).memory 4227 = 7 := by
  obtain ⟨heap, returned⟩ := page_malloc
  have second : ((myMalloc 2 page.heap 100).bind fun r =>
      (myMalloc 2 { r.1 with memory := poke r.1.memory 4227 7 } 200).map (·.2)) = some 4288 := by
    decide +kernel
  rw [returned, Option.bind_some] at second
  obtain ⟨⟨heap', p⟩, returned', rfl⟩ := Option.map_eq_some_iff.mp second
  have begun : Reachable (ownerSystem 4096 4096) ⟨page.heap, Holdings.nothing⟩ :=
    .start ⟨page_started, rfl⟩
  have granted : Reachable (ownerSystem 4096 4096) ⟨heap, Holdings.nothing.take (4128, 100)⟩ :=
    .step begun (@OwnerStep.malloc ⟨page.heap, Holdings.nothing⟩ 2 100 4128 heap (by decide) returned)
  have written := Reachable.step granted
    (@OwnerStep.write ⟨heap, Holdings.nothing.take (4128, 100)⟩ 4128 100 4227 7 List.mem_cons_self
      (by decide))
  have both : Reachable (ownerSystem 4096 4096) ⟨heap',
      ((Holdings.nothing.take (4128, 100)).write 4227 7).take (4288, 200)⟩ :=
    .step written (@OwnerStep.malloc ⟨{ heap with memory := poke heap.memory 4227 7 },
      (Holdings.nothing.take (4128, 100)).write 4227 7⟩ 2 200 4288 heap' (by decide) returned')
  have kept := ((payload_kept 4096 4096).1 _ both).1 (4128, 100)
    (List.mem_cons_of_mem _ List.mem_cons_self) 4227 (by decide) 7 rfl
  have freed := ((payload_kept 4096 4096).1 _ both).2.2 4288 200 List.mem_cons_self (4128, 100)
    List.mem_cons_self 4227 (by decide)
  exact ⟨heap, heap', 4288, returned, returned', kept, freed.trans kept⟩

end LinuxMemory.Freelist
