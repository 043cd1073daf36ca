import LinuxMemory.Freelist
import LinuxMemory.Tiling

/-!
The chunk layout that a heap represents, and the effect on it of the four
operations the allocator is built from: rewriting the tags of a stretch of
chunks, unlinking a chunk, linking one, and a write by a client. A `Layout` may
be one between two statements of `my_malloc` or `my_free`, where the list and
the free flags disagree; `Consistent` is what holds between two calls.
-/

namespace LinuxMemory.Freelist

open ByteMemory LinkedList Tiling

abbrev Chunk := Segment

structure Layout where
  chunks : List Chunk
  freeList : List Nat

def tag (c : Chunk) : Nat := c.size + if c.free then 1 else 0

structure Tagged (memory : Memory) (c : Chunk) : Prop where
  header : loadWord memory c.addr = tag c
  footer : loadWord memory (c.addr + c.size - 16) = tag c

def Sized (c : Chunk) : Prop := c.size % 16 = 0 ∧ 64 ≤ c.size

structure Rep (s : Heap) (layout : Layout) : Prop where
  aligned : s.heapBase % 4096 = 0
  valid : 0 < s.heapBase
  below : s.heapEnd < 2 ^ 64
  tiles : Tiles s.heapBase layout.chunks s.heapEnd
  sized : ∀ c ∈ layout.chunks, Sized c
  tagged : ∀ c ∈ layout.chunks, Tagged s.memory c
  listed : ∀ a ∈ layout.freeList, ∃ c ∈ layout.chunks, c.addr = a
  links : DoublyLinked 0 (prevFree s.memory) (nextFree s.memory) 0 s.freeHead layout.freeList

def freeAddrs (chunks : List Chunk) : List Nat := (chunks.filter (·.free)).map (·.addr)

def usedChunks (chunks : List Chunk) : List Chunk := chunks.filter (fun c => !c.free)

structure Consistent (layout : Layout) : Prop where
  coalesced : Coalesced layout.chunks
  exact : layout.freeList.Perm (freeAddrs layout.chunks)

@[simp] theorem hdrSz_eq : hdrSz = 32 := by decide

@[simp] theorem ftrSz_eq : ftrSz = 16 := by decide

@[simp] theorem minChunk_eq : minChunk = 64 := by decide

theorem alignUp_eq (x : Nat) : alignUp x = Word.add x 15 / 16 * 16 :=
  Word.roundUp_eq 4 x (by decide)

structure Placed (c : Chunk) : Prop where
  aligned : c.addr % 16 = 0
  whole : c.size % 16 = 0
  room : 64 ≤ c.size
  below : c.addr + c.size < 2 ^ 64

/-! Reading and writing the two tags of one chunk. -/

theorem tag_lt (c : Chunk) (placed : Placed c) : tag c < 2 ^ 64 := by
  obtain ⟨aligned, whole, room, below⟩ := placed
  unfold tag
  split <;> omega

theorem csz_eq (memory : Memory) (c : Chunk) (placed : Placed c)
    (header : loadWord memory c.addr = tag c) : csz memory c.addr = c.size := by
  have mask : tag c &&& Word.not 1 = tag c / 2 * 2 :=
    Word.and_not_low 1 (tag c) (by decide) (tag_lt c placed)
  have whole := placed.whole
  rw [csz, sizeFlags, header, mask]
  unfold tag
  split <;> omega

theorem cfree_eq (memory : Memory) (c : Chunk) (placed : Placed c)
    (header : loadWord memory c.addr = tag c) : cfree memory c.addr = c.free := by
  have whole := placed.whole
  rw [cfree, sizeFlags, header, Nat.and_one_is_mod]
  unfold tag
  cases c.free with
  | false => simp; omega
  | true =>
      have odd : (c.size + 1) % 2 = 1 := by omega
      simp [odd]

theorem nextOf_eq (memory : Memory) (c : Chunk) (placed : Placed c)
    (header : loadWord memory c.addr = tag c) : nextOf memory c.addr = c.addr + c.size := by
  rw [nextOf, csz_eq memory c placed header, Word.add_exact _ _ placed.below]

theorem ftrOf_eq (memory : Memory) (c : Chunk) (placed : Placed c)
    (header : loadWord memory c.addr = tag c) : ftrOf memory c.addr = c.addr + c.size - 16 := by
  have room := placed.room
  rw [ftrOf, csz_eq memory c placed header, Word.add_exact _ _ placed.below, ftrSz_eq,
    Word.sub_exact _ _ (by omega) placed.below]

def writeTags (memory : Memory) (c : Chunk) : Memory :=
  storeWord (storeWord memory c.addr (tag c)) (c.addr + c.size - 16) (tag c)

theorem loadWord_writeTags (memory : Memory) (c : Chunk) (placed : Placed c) (address : Nat)
    (word : address % 8 = 0) :
    loadWord (writeTags memory c) address =
      if address = c.addr ∨ address = c.addr + c.size - 16 then tag c else loadWord memory address := by
  have bounded := tag_lt c placed
  obtain ⟨aligned, whole, room, below⟩ := placed
  rw [writeTags, loadWord_storeWord _ _ _ _ word (by omega) bounded,
    loadWord_storeWord _ _ _ _ word (by omega) bounded]
  by_cases header : address = c.addr <;> by_cases footer : address = c.addr + c.size - 16 <;>
    simp [header, footer]

theorem setSize_eq (s : Heap) (c : Chunk) (placed : Placed c) :
    setSize s c.addr c.size c.free = { s with memory := writeTags s.memory c } := by
  have bounded := tag_lt c placed
  have value : (c.size ||| if c.free then 1 else 0) = tag c := by
    have whole := placed.whole
    unfold tag
    cases c.free with
    | false => simp
    | true => exact Word.or_one c.size (by omega)
  have aligned := placed.aligned
  have header : loadWord (storeWord s.memory c.addr (tag c)) c.addr = tag c := by
    rw [loadWord_storeWord _ _ _ _ (by omega) (by omega) bounded, if_pos rfl]
  simp only [setSize, value]
  rw [ftrOf_eq _ c placed header, sizeFlags, header, writeTags]

theorem tagged_writeTags (memory : Memory) (c : Chunk) (placed : Placed c) :
    Tagged (writeTags memory c) c := by
  have words := loadWord_writeTags memory c placed
  obtain ⟨aligned, whole, room, below⟩ := placed
  constructor
  · rw [words _ (by omega), if_pos (Or.inl rfl)]
  · rw [words _ (by omega), if_pos (Or.inr rfl)]

theorem tagged_writeTags_apart (memory : Memory) (c d : Chunk) (placed : Placed c) (other : Placed d)
    (apart : c.Apart d) (tagged : Tagged memory d) : Tagged (writeTags memory c) d := by
  have words := loadWord_writeTags memory c placed
  obtain ⟨aligned, whole, room, below⟩ := placed
  obtain ⟨aligned', whole', room', below'⟩ := other
  unfold Segment.Apart at apart
  constructor
  · rw [words _ (by omega), if_neg (by omega), tagged.header]
  · rw [words _ (by omega), if_neg (by omega), tagged.footer]

theorem links_writeTags (memory : Memory) (c d : Chunk) (placed : Placed c) (other : Placed d)
    (same : c.addr = d.addr ∨ c.Apart d) :
    prevFree (writeTags memory c) d.addr = prevFree memory d.addr ∧
      nextFree (writeTags memory c) d.addr = nextFree memory d.addr := by
  have words := loadWord_writeTags memory c placed
  obtain ⟨aligned, whole, room, below⟩ := placed
  obtain ⟨aligned', whole', room', below'⟩ := other
  unfold Segment.Apart at same
  constructor
  · exact (words _ (by omega)).trans (if_neg (by omega))
  · exact (words _ (by omega)).trans (if_neg (by omega))

/-! Rewriting the tags of a stretch of chunks. -/

theorem tagged_foldl_apart (chunks : List Chunk) (memory : Memory) (d : Chunk)
    (placed : ∀ c ∈ chunks, Placed c) (other : Placed d) (apart : ∀ c ∈ chunks, c.Apart d)
    (tagged : Tagged memory d) : Tagged (chunks.foldl writeTags memory) d := by
  induction chunks generalizing memory with
  | nil => exact tagged
  | cons c rest ih =>
      apply ih
      · exact fun e member => placed e (List.mem_cons_of_mem _ member)
      · exact fun e member => apart e (List.mem_cons_of_mem _ member)
      · exact tagged_writeTags_apart memory c d (placed c List.mem_cons_self) other
          (apart c List.mem_cons_self) tagged

theorem tagged_foldl (chunks : List Chunk) (memory : Memory) (placed : ∀ c ∈ chunks, Placed c)
    (apart : chunks.Pairwise Segment.Apart) : ∀ c ∈ chunks, Tagged (chunks.foldl writeTags memory) c := by
  induction chunks generalizing memory with
  | nil => simp
  | cons c rest ih =>
      have restPlaced : ∀ e ∈ rest, Placed e := fun e member => placed e (List.mem_cons_of_mem _ member)
      have split := List.pairwise_cons.mp apart
      intro d member
      rcases List.mem_cons.mp member with rfl | later
      · apply tagged_foldl_apart rest _ d restPlaced (placed d member)
        · exact fun e inside => (split.1 e inside).symm
        · exact tagged_writeTags memory d (placed d member)
      · exact ih _ restPlaced split.2 d later

theorem links_foldl (chunks : List Chunk) (memory : Memory) (d : Chunk)
    (placed : ∀ c ∈ chunks, Placed c) (other : Placed d)
    (same : ∀ c ∈ chunks, c.addr = d.addr ∨ c.Apart d) :
    prevFree (chunks.foldl writeTags memory) d.addr = prevFree memory d.addr ∧
      nextFree (chunks.foldl writeTags memory) d.addr = nextFree memory d.addr := by
  induction chunks generalizing memory with
  | nil => exact ⟨rfl, rfl⟩
  | cons c rest ih =>
      have head := links_writeTags memory c d (placed c List.mem_cons_self) other
        (same c List.mem_cons_self)
      have tail := ih (writeTags memory c) (fun e member => placed e (List.mem_cons_of_mem _ member))
        (fun e member => same e (List.mem_cons_of_mem _ member))
      exact ⟨tail.1.trans head.1, tail.2.trans head.2⟩

theorem base_aligned (s : Heap) (layout : Layout) (rep : Rep s layout) : s.heapBase % 16 = 0 := by
  have page := rep.aligned
  omega

theorem rep_placed (s : Heap) (layout : Layout) (rep : Rep s layout) (c : Chunk)
    (member : c ∈ layout.chunks) : Placed c := by
  have bounds := tiles_bounds _ _ _ rep.tiles c member
  have below := rep.below
  exact ⟨tiles_aligned 16 _ _ _ rep.tiles (base_aligned _ _ rep) (fun d inside => (rep.sized d inside).1) c member,
    (rep.sized c member).1, (rep.sized c member).2, by omega⟩

theorem rep_apart (s : Heap) (layout : Layout) (rep : Rep s layout) (c d : Chunk)
    (left : c ∈ layout.chunks) (right : d ∈ layout.chunks) : c = d ∨ c.Apart d := by
  by_cases same : c = d
  · exact Or.inl same
  · exact Or.inr (tiles_apart _ _ _ rep.tiles c d left right same)

/-- Replacing a stretch of chunks by one that tiles the same bytes, with the new
tags written and the list untouched. Marking, splitting and merging are cases.
A listed chunk of the stretch needs one that starts where it did. -/
theorem rep_retag (s : Heap) (front old new rest : List Chunk) (freeList : List Nat)
    (rep : Rep s ⟨front ++ old ++ rest, freeList⟩)
    (tiles : ∀ low high, Tiles low old high → Tiles low new high) (sized : ∀ c ∈ new, Sized c)
    (starts : ∀ d ∈ old, d.addr ∈ freeList → ∃ e ∈ new, e.addr = d.addr) :
    Rep { s with memory := new.foldl writeTags s.memory } ⟨front ++ new ++ rest, freeList⟩ := by
  have tiling := tiles_replace _ _ front old new rest rep.tiles tiles
  have allSized : ∀ c ∈ front ++ new ++ rest, Sized c := by
    intro c member
    simp only [List.mem_append] at member
    rcases member with (early | fresh) | late
    · exact rep.sized c (by simp [early])
    · exact sized c fresh
    · exact rep.sized c (by simp [late])
  have placed : ∀ c ∈ front ++ new ++ rest, Placed c := by
    intro c member
    have bounds := tiles_bounds _ _ _ tiling c member
    have below := rep.below
    exact ⟨tiles_aligned 16 _ _ _ tiling (base_aligned _ _ rep) (fun d inside => (allSized d inside).1) c member,
      (allSized c member).1, (allSized c member).2, by omega⟩
  have newPlaced : ∀ c ∈ new, Placed c := fun c member => placed c (by simp [member])
  -- the new tiling gives what each write needs: no two chunks share a byte
  have pairwise : (front ++ new ++ rest).Pairwise Segment.Apart :=
    (tiles_ordered _ _ _ tiling).imp Or.inl
  have apart : ∀ c ∈ front ++ rest, ∀ d ∈ new, d.Apart c := by
    intro c member d fresh
    have parts := List.pairwise_append.mp pairwise
    rcases List.mem_append.mp member with early | late
    · exact ((List.pairwise_append.mp parts.1).2.2 c early d fresh).symm
    · exact parts.2.2 d (List.mem_append_right _ fresh) c late
  have listed : ∀ a ∈ freeList, ∃ c ∈ front ++ new ++ rest, c.addr = a := by
    intro a member
    obtain ⟨d, inside, rfl⟩ := rep.listed a member
    simp only [List.mem_append] at inside
    rcases inside with (early | stretch) | late
    · exact ⟨d, by simp [early], rfl⟩
    · obtain ⟨e, fresh, same⟩ := starts d stretch member
      exact ⟨e, by simp [fresh], same⟩
    · exact ⟨d, by simp [late], rfl⟩
  refine ⟨rep.aligned, rep.valid, rep.below, tiling, allSized, ?_, listed, ?_⟩
  · -- the new chunks carry their tags, and the others share no byte with them
    intro c member
    by_cases fresh : c ∈ new
    · have inner := (List.pairwise_append.mp (List.pairwise_append.mp pairwise).1).2.1
      exact tagged_foldl new s.memory newPlaced inner c fresh
    · have kept : c ∈ front ++ rest := by simpa [fresh] using member
      have old : c ∈ front ++ old ++ rest := by
        rcases List.mem_append.mp kept with early | late <;> simp [*]
      exact tagged_foldl_apart new s.memory c newPlaced (placed c member) (apart c kept)
        (rep.tagged c old)
  · -- a listed chunk is one of the new tiling, so each new tag misses its links
    have kept : ∀ a ∈ freeList, prevFree (new.foldl writeTags s.memory) a = prevFree s.memory a ∧
        nextFree (new.foldl writeTags s.memory) a = nextFree s.memory a := by
      intro a member
      obtain ⟨d, inside, rfl⟩ := listed a member
      apply links_foldl new s.memory d newPlaced (placed d inside)
      intro c fresh
      by_cases same : c = d
      · exact Or.inl (congrArg Segment.addr same)
      · exact Or.inr (tiles_apart _ _ _ tiling c d (by simp [fresh]) inside same)
    exact doubly_linked_congr _ _ _ rep.links (fun a member => (kept a member).2)
      (fun a member => (kept a member).1)

/-! Writing link fields. A node is `NULL` or a chunk of the layout; a write
through `NULL` is the one that the source guards against. -/

def linkNext (memory : Memory) (node value : Nat) : Memory :=
  if node ≠ 0 then storeWord memory (node + 16) value else memory

def linkPrev (memory : Memory) (node value : Nat) : Memory :=
  if node ≠ 0 then storeWord memory (node + 8) value else memory

def Node (layout : Layout) (node : Nat) : Prop :=
  node = 0 ∨ ∃ c ∈ layout.chunks, c.addr = node

section Links
variable {s : Heap} {layout : Layout}

theorem node_aligned (rep : Rep s layout) (node : Nat) (valid : Node layout node) : node % 16 = 0 := by
  rcases valid with rfl | ⟨c, member, rfl⟩
  · rfl
  · exact (rep_placed s layout rep c member).aligned

theorem chunk_not_null (rep : Rep s layout) (c : Chunk) (member : c ∈ layout.chunks) : c.addr ≠ 0 := by
  have := (tiles_bounds _ _ _ rep.tiles c member).1
  have := rep.valid
  omega

theorem nextFree_linkNext (memory : Memory) (node value a : Nat) (bounded : value < 2 ^ 64)
    (aligned : node % 16 = 0) (aligned' : a % 16 = 0) (valid : a ≠ 0) :
    nextFree (linkNext memory node value) a = if a = node then value else nextFree memory a := by
  unfold linkNext
  split
  · rw [nextFree, loadWord_storeWord _ _ _ _ (by omega) (by omega) bounded]
    by_cases same : a = node <;> simp [same, nextFree]
  · next null => simp only [ne_eq, not_not] at null; simp [null, valid]

theorem prevFree_linkPrev (memory : Memory) (node value a : Nat) (bounded : value < 2 ^ 64)
    (aligned : node % 16 = 0) (aligned' : a % 16 = 0) (valid : a ≠ 0) :
    prevFree (linkPrev memory node value) a = if a = node then value else prevFree memory a := by
  unfold linkPrev
  split
  · rw [prevFree, loadWord_storeWord _ _ _ _ (by omega) (by omega) bounded]
    by_cases same : a = node <;> simp [same, prevFree]
  · next null => simp only [ne_eq, not_not] at null; simp [null, valid]

theorem prevFree_linkNext (memory : Memory) (node value a : Nat) (bounded : value < 2 ^ 64)
    (aligned : node % 16 = 0) (aligned' : a % 16 = 0) :
    prevFree (linkNext memory node value) a = prevFree memory a := by
  unfold linkNext
  split
  · rw [prevFree, loadWord_storeWord _ _ _ _ (by omega) (by omega) bounded, if_neg (by omega), prevFree]
  · rfl

theorem nextFree_linkPrev (memory : Memory) (node value a : Nat) (bounded : value < 2 ^ 64)
    (aligned : node % 16 = 0) (aligned' : a % 16 = 0) :
    nextFree (linkPrev memory node value) a = nextFree memory a := by
  unfold linkPrev
  split
  · rw [nextFree, loadWord_storeWord _ _ _ _ (by omega) (by omega) bounded, if_neg (by omega), nextFree]
  · rfl

theorem tagged_linkNext (rep : Rep s layout) (memory : Memory) (node value : Nat)
    (bounded : value < 2 ^ 64) (valid : Node layout node) (d : Chunk) (member : d ∈ layout.chunks)
    (tagged : Tagged memory d) : Tagged (linkNext memory node value) d := by
  unfold linkNext
  rcases valid with rfl | ⟨e, inside, rfl⟩
  · simpa using tagged
  · rw [if_pos (chunk_not_null rep e inside)]
    have apart := rep_apart s layout rep d e member inside
    obtain ⟨aligned, whole, room, below⟩ := rep_placed s layout rep d member
    obtain ⟨aligned', whole', room', below'⟩ := rep_placed s layout rep e inside
    -- `next` of a chunk is neither its own header nor footer, since it has 64 bytes
    have positions : d.addr ≠ e.addr + 16 ∧ d.addr + d.size - 16 ≠ e.addr + 16 := by
      rcases apart with rfl | apart
      · omega
      · unfold Segment.Apart at apart; omega
    constructor
    · rw [loadWord_storeWord _ _ _ _ (by omega) (by omega) bounded, if_neg positions.1, tagged.header]
    · rw [loadWord_storeWord _ _ _ _ (by omega) (by omega) bounded, if_neg positions.2, tagged.footer]

theorem tagged_linkPrev (rep : Rep s layout) (memory : Memory) (node value : Nat)
    (bounded : value < 2 ^ 64) (valid : Node layout node) (d : Chunk) (member : d ∈ layout.chunks)
    (tagged : Tagged memory d) : Tagged (linkPrev memory node value) d := by
  have aligned' := node_aligned rep node valid
  obtain ⟨aligned, whole, room, below⟩ := rep_placed s layout rep d member
  unfold linkPrev
  split
  · constructor
    · rw [loadWord_storeWord _ _ _ _ (by omega) (by omega) bounded, if_neg (by omega), tagged.header]
    · rw [loadWord_storeWord _ _ _ _ (by omega) (by omega) bounded, if_neg (by omega), tagged.footer]
  · exact tagged

theorem listed_node (rep : Rep s layout) (a : Nat) (member : a ∈ layout.freeList) :
    Node layout a ∧ a ≠ 0 ∧ a % 16 = 0 := by
  obtain ⟨c, inside, rfl⟩ := rep.listed a member
  exact ⟨Or.inr ⟨c, inside, rfl⟩, chunk_not_null rep c inside, (rep_placed s layout rep c inside).aligned⟩

theorem head_node (rep : Rep s layout) : Node layout s.freeHead := by
  rcases linked_head _ _ (doubly_linked_forward _ _ _ rep.links) with isNull | listed
  · exact Or.inl isNull
  · exact (listed_node rep _ listed).1

theorem usedChunks_nodup (rep : Rep s layout) : ((usedChunks layout.chunks).map (·.addr)).Nodup :=
  (tiles_nodup _ _ _ rep.tiles).sublist (List.filter_sublist.map _)

theorem freeList_nodup (rep : Rep s layout) : layout.freeList.Nodup :=
  linked_nodup _ _ (doubly_linked_forward _ _ _ rep.links)

end Links

theorem rep_relink (s : Heap) (layout : Layout) (rep : Rep s layout) (memory : Memory) (head : Nat)
    (freeList : List Nat) (tagged : ∀ c ∈ layout.chunks, Tagged memory c)
    (listed : ∀ a ∈ freeList, ∃ c ∈ layout.chunks, c.addr = a)
    (links : DoublyLinked 0 (prevFree memory) (nextFree memory) 0 head freeList) :
    Rep { s with memory := memory, freeHead := head } ⟨layout.chunks, freeList⟩ :=
  ⟨rep.aligned, rep.valid, rep.below, rep.tiles, rep.sized, tagged, listed, links⟩

theorem flInsert_eq (s : Heap) (h : Nat) (valid : h ≠ 0) :
    flInsert s h = { s with
      memory := linkPrev (linkNext (linkPrev s.memory h 0) h s.freeHead) s.freeHead h, freeHead := h } := by
  simp [flInsert, linkPrev, linkNext, valid]

theorem rep_flInsert (s : Heap) (layout : Layout) (rep : Rep s layout) (c : Chunk)
    (member : c ∈ layout.chunks) (fresh : c.addr ∉ layout.freeList) :
    Rep (flInsert s c.addr) ⟨layout.chunks, c.addr :: layout.freeList⟩ := by
  have valid := chunk_not_null rep c member
  have aligned := (rep_placed s layout rep c member).aligned
  have bounded : c.addr < 2 ^ 64 := by have := (rep_placed s layout rep c member).below; omega
  have headNode := head_node rep
  have headAligned := node_aligned rep _ headNode
  have headBounded : s.freeHead < 2 ^ 64 := by
    rcases headNode with null | ⟨d, inside, same⟩
    · rw [null]; decide
    · have := (rep_placed s layout rep d inside).below; omega
  have chunkNode : Node layout c.addr := Or.inr ⟨c, member, rfl⟩
  rw [flInsert_eq s c.addr valid]
  apply rep_relink s layout rep
  · intro d inside
    apply tagged_linkPrev rep _ _ _ bounded headNode d inside
    apply tagged_linkNext rep _ _ _ headBounded chunkNode d inside
    exact tagged_linkPrev rep _ _ _ (by decide) chunkNode d inside (rep.tagged d inside)
  · intro a listed
    rcases List.mem_cons.mp listed with rfl | old
    · exact ⟨c, member, rfl⟩
    · exact rep.listed a old
  -- the old head is listed and `c` is not, so the writes go to different nodes
  · have apart : c.addr ≠ s.freeHead := by
      intro same
      rcases linked_head _ _ (doubly_linked_forward _ _ _ rep.links) with isNull | listed
      · exact valid (same.trans isNull)
      · exact fresh (same ▸ listed)
    -- the three writes together, as the link fields of any chunk see them
    have nexts : ∀ a, a % 16 = 0 → a ≠ 0 →
        nextFree (linkPrev (linkNext (linkPrev s.memory c.addr 0) c.addr s.freeHead) s.freeHead c.addr) a =
          if a = c.addr then s.freeHead else nextFree s.memory a := by
      intro a word notNull
      rw [nextFree_linkPrev _ _ _ _ bounded headAligned word,
        nextFree_linkNext _ _ _ _ headBounded aligned word notNull,
        nextFree_linkPrev _ _ _ _ (by decide) aligned word]
    have prevs : ∀ a, a % 16 = 0 → a ≠ 0 →
        prevFree (linkPrev (linkNext (linkPrev s.memory c.addr 0) c.addr s.freeHead) s.freeHead c.addr) a =
          if a = s.freeHead then c.addr else if a = c.addr then 0 else prevFree s.memory a := by
      intro a word notNull
      rw [prevFree_linkPrev _ _ _ _ bounded headAligned word notNull,
        prevFree_linkNext _ _ _ _ headBounded aligned word,
        prevFree_linkPrev _ _ _ _ (by decide) aligned word notNull]
    have others : ∀ a ∈ layout.freeList, a ≠ c.addr := fun a inside same => fresh (same ▸ inside)
    apply doubly_linked_insert s.freeHead c.addr layout.freeList rep.links valid
    · rw [nexts _ aligned valid, if_pos rfl]
    · rw [prevs _ aligned valid, if_neg apart, if_pos rfl]
    · intro a inside
      obtain ⟨-, notNull, word⟩ := listed_node rep a inside
      rw [nexts a word notNull, if_neg (others a inside)]
    · intro a inside
      obtain ⟨-, notNull, word⟩ := listed_node rep a inside
      rw [prevs a word notNull, if_neg (others a inside)]

/-- `fl_remove` as two link writes: the second test reads the link fields of `h`
after the first write, which has not changed them. -/
theorem flRemove_eq (s : Heap) (h : Nat) (aligned : h % 16 = 0) (valid : h ≠ 0)
    (prevAligned : prevFree s.memory h % 16 = 0) (apart : h ≠ prevFree s.memory h) :
    flRemove s h = { s with
      memory := linkPrev (linkNext s.memory (prevFree s.memory h) (nextFree s.memory h))
        (nextFree s.memory h) (prevFree s.memory h)
      freeHead := if prevFree s.memory h = 0 then nextFree s.memory h else s.freeHead } := by
  have bounded : nextFree s.memory h < 2 ^ 64 := loadWord_lt _ _
  -- the first write goes to another node and leaves both link fields of `h`
  have keptNext := nextFree_linkNext s.memory (prevFree s.memory h) (nextFree s.memory h) h bounded
    prevAligned aligned valid
  have keptPrev := prevFree_linkNext s.memory (prevFree s.memory h) (nextFree s.memory h) h bounded
    prevAligned aligned
  rw [if_neg apart] at keptNext
  by_cases first : prevFree s.memory h = 0
  · by_cases last : nextFree s.memory h = 0 <;> simp [flRemove, linkNext, linkPrev, first, last]
  · simp only [linkNext, first, ne_eq, not_false_eq_true, ↓reduceIte] at keptNext keptPrev ⊢
    simp only [flRemove, first, ne_eq, not_false_eq_true, ↓reduceIte, keptNext, keptPrev, linkPrev]
    split <;> rfl

theorem neighbour_nodes (s : Heap) (layout : Layout) (rep : Rep s layout) (a : Nat)
    (member : a ∈ layout.freeList) :
    Node layout (prevFree s.memory a) ∧ Node layout (nextFree s.memory a) ∧
      a ≠ prevFree s.memory a := by
  obtain ⟨front, rest, shape⟩ := List.append_of_mem member
  have links := rep.links
  rw [shape] at links
  have distinct := freeList_nodup rep
  rw [shape] at distinct
  have back := doubly_linked_prev_mem _ _ _ _ _ links
  have forth := doubly_linked_next_mem _ _ _ _ _ links
  have notNull := (listed_node rep a member).2.1
  have listedNode : ∀ x ∈ front ++ a :: rest, Node layout x :=
    fun x inside => (listed_node rep x (shape ▸ inside)).1
  refine ⟨?_, ?_, ?_⟩
  · rcases back with isNull | early
    · exact Or.inl isNull
    · exact listedNode _ (List.mem_append_left _ early)
  · rcases forth with isNull | late
    · exact Or.inl isNull
    · exact listedNode _ (List.mem_append_right _ (List.mem_cons_of_mem _ late))
  · intro same
    rcases back with isNull | early
    · exact notNull (same.trans isNull)
    · exact (List.nodup_append.mp distinct).2.2 a (same ▸ early) a List.mem_cons_self rfl

theorem flRemove_links (s : Heap) (layout : Layout) (rep : Rep s layout) (a : Nat)
    (member : a ∈ layout.freeList) :
    flRemove s a = { s with
      memory := linkPrev (linkNext s.memory (prevFree s.memory a) (nextFree s.memory a))
        (nextFree s.memory a) (prevFree s.memory a)
      freeHead := if prevFree s.memory a = 0 then nextFree s.memory a else s.freeHead } := by
  obtain ⟨prevNode, -, apart⟩ := neighbour_nodes s layout rep a member
  obtain ⟨-, notNull, aligned⟩ := listed_node rep a member
  exact flRemove_eq s a aligned notNull (node_aligned rep _ prevNode) apart

theorem rep_flRemove (s : Heap) (layout : Layout) (rep : Rep s layout) (a : Nat)
    (member : a ∈ layout.freeList) : Rep (flRemove s a) ⟨layout.chunks, layout.freeList.erase a⟩ := by
  obtain ⟨front, rest, -, shape, erased⟩ := List.exists_erase_eq member
  have links := rep.links
  rw [shape] at links
  obtain ⟨prevNode, nextNode, -⟩ := neighbour_nodes s layout rep a member
  have prevAligned := node_aligned rep _ prevNode
  have nextAligned := node_aligned rep _ nextNode
  have prevBounded : prevFree s.memory a < 2 ^ 64 := loadWord_lt _ _
  have nextBounded : nextFree s.memory a < 2 ^ 64 := loadWord_lt _ _
  -- the source reads `prev` and `next` of `a` before it unlinks it
  rw [flRemove_links s layout rep a member, erased]
  have kept : ∀ x ∈ front ++ rest, x ∈ layout.freeList := by
    intro x inside
    rw [shape]
    rcases List.mem_append.mp inside with early | late
    · exact List.mem_append_left _ early
    · exact List.mem_append_right _ (List.mem_cons_of_mem _ late)
  apply rep_relink s layout rep
  · intro d inside
    apply tagged_linkPrev rep _ _ _ prevBounded nextNode d inside
    exact tagged_linkNext rep _ _ _ nextBounded prevNode d inside (rep.tagged d inside)
  · exact fun x inside => rep.listed x (kept x inside)
  · apply doubly_linked_remove s.freeHead a front rest links
    · intro x inside
      obtain ⟨-, valid, word⟩ := listed_node rep x (kept x inside)
      rw [nextFree_linkPrev _ _ _ _ prevBounded nextAligned word,
        nextFree_linkNext _ _ _ _ nextBounded prevAligned word valid]
    · intro x inside
      obtain ⟨-, valid, word⟩ := listed_node rep x (kept x inside)
      rw [prevFree_linkPrev _ _ _ _ prevBounded nextAligned word valid,
        prevFree_linkNext _ _ _ _ nextBounded prevAligned word]

def Metadata (c : Chunk) (byte : Nat) : Prop :=
  (c.addr ≤ byte ∧ byte < c.addr + 32) ∨ (c.addr + c.size - 16 ≤ byte ∧ byte < c.addr + c.size)

/-- The representation reads header and footer bytes only. -/
theorem rep_frame (s : Heap) (layout : Layout) (rep : Rep s layout) (memory : Memory)
    (same : ∀ c ∈ layout.chunks, ∀ byte, Metadata c byte → memory byte = s.memory byte) :
    Rep { s with memory := memory } layout := by
  have words : ∀ c ∈ layout.chunks, ∀ offset, offset + 8 ≤ 32 →
      loadWord memory (c.addr + offset) = loadWord s.memory (c.addr + offset) := by
    intro c member offset inside
    apply load_congr
    intro byte low high
    exact same c member byte (Or.inl ⟨by omega, by omega⟩)
  apply rep_relink s layout rep memory s.freeHead layout.freeList
  · intro c member
    have room := (rep_placed s layout rep c member).room
    constructor
    · exact (words c member 0 (by decide)).trans (rep.tagged c member).header
    · refine Eq.trans (load_congr _ _ 8 _ ?_) (rep.tagged c member).footer
      intro byte low high
      exact same c member byte (Or.inr ⟨low, by omega⟩)
  · exact rep.listed
  · apply doubly_linked_congr _ _ _ rep.links
    · intro a listed
      obtain ⟨c, member, rfl⟩ := rep.listed a listed
      exact words c member 16 (by decide)
    · intro a listed
      obtain ⟨c, member, rfl⟩ := rep.listed a listed
      exact words c member 8 (by decide)

theorem initCap_eq (cap : Nat) : initCap cap = Word.add cap 4095 / 4096 * 4096 :=
  Word.roundUp_eq 12 cap (by decide)

def whole (mapped cap : Nat) : Chunk := ⟨mapped, initCap cap, true⟩

theorem whole_placed (mapped cap : Nat) (success : Region mapped (initCap cap)) :
    Placed (whole mapped cap) := by
  obtain ⟨aligned, valid, nonempty, below⟩ := success
  have shape := initCap_eq cap
  unfold whole
  constructor
  · show mapped % 16 = 0
    omega
  · show initCap cap % 16 = 0
    omega
  · show 64 ≤ initCap cap
    omega
  · exact below

theorem rep_myInit (memory : Memory) (mapped cap : Nat) (success : Region mapped (initCap cap)) :
    Rep (myInit memory mapped cap) ⟨[whole mapped cap], [mapped]⟩ := by
  have placed := whole_placed mapped cap success
  have room := placed.room
  obtain ⟨aligned, valid, nonempty, below⟩ := success
  have start : Rep ⟨writeTags memory (whole mapped cap), mapped, Word.add mapped (initCap cap), 0⟩
      ⟨[whole mapped cap], []⟩ := by
    rw [Word.add_exact mapped (initCap cap) below]
    refine ⟨aligned, valid, below, ⟨rfl, nonempty, rfl⟩, ?_, ?_, ?_, rfl⟩
    · intro c member
      rw [List.mem_singleton.mp member]
      exact ⟨placed.whole, placed.room⟩
    · intro c member
      rw [List.mem_singleton.mp member]
      exact tagged_writeTags memory _ placed
    · simp
  have marked := setSize_eq ⟨memory, mapped, Word.add mapped (initCap cap), 0⟩ (whole mapped cap) placed
  simp only [whole] at marked
  rw [myInit, marked]
  exact rep_flInsert _ _ start (whole mapped cap) (by simp) (by simp)

end LinuxMemory.Freelist
