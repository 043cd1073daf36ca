import LinuxMemory.FreelistCalls

/-!
Whole runs of the first-fit allocator. The layouts form a system of their own,
in which a client write is invisible; every run of the allocator is simulated by
a run of layouts.
-/

namespace LinuxMemory.Freelist

open ByteMemory LinkedList Tiling Transition

inductive LayoutStep : Layout → Event → Layout → Prop where
  | refuse {layout : Layout} {req : Nat}
      (full : req = 0 ∨ layout.firstFit (needOf req) = none) :
      LayoutStep layout (.malloc req 0) layout
  | grant {layout : Layout} {req : Nat} {front rest : List Chunk} {c : Chunk} (wanted : req ≠ 0)
      (shape : layout.chunks = front ++ c :: rest) (free : c.free = true)
      (fits : needOf req ≤ c.size) (first : layout.firstFit (needOf req) = some c.addr) :
      LayoutStep layout (.malloc req (c.addr + 32))
        (takeLayout front c rest layout.freeList (needOf req))
  | null {layout : Layout} : LayoutStep layout (.free 0) layout
  | release {layout : Layout} {front rest : List Chunk} {c : Chunk}
      (shape : layout.chunks = front ++ c :: rest) (used : c.free = false) :
      LayoutStep layout (.free (c.addr + 32)) (releaseLayout front c rest layout.freeList)
  | write {layout : Layout} {address : Nat} {value : UInt8} :
      LayoutStep layout (.write address value) layout

theorem layoutStep_malloc (low high : Nat) (layout after after' : Layout) (req p q : Nat)
    (tiles : Tiles low layout.chunks high) (next : LayoutStep layout (.malloc req p) after)
    (next' : LayoutStep layout (.malloc req q) after') : p = q ∧ after = after' := by
  cases next with
  | refuse full =>
      cases next' with
      | refuse _ => exact ⟨rfl, rfl⟩
      | grant wanted _ _ _ first =>
          rcases full with empty | none
          · exact absurd empty wanted
          · rw [none] at first
            cases first
  | grant wanted shape _ _ first =>
      cases next' with
      | refuse full =>
          rcases full with empty | none
          · exact absurd empty wanted
          · rw [none] at first
            cases first
      | grant _ shape' _ _ first' =>
          have same := Option.some.inj (first.symm.trans first')
          rw [shape] at tiles shape'
          obtain ⟨rfl, rfl, rfl⟩ := tiles_split_unique low high _ _ _ _ _ _ tiles shape' same
          exact ⟨rfl, rfl⟩

theorem layoutStep_free (low high : Nat) (layout after after' : Layout) (p : Nat)
    (tiles : Tiles low layout.chunks high) (next : LayoutStep layout (.free p) after)
    (next' : LayoutStep layout (.free p) after') : after = after' := by
  generalize isEvent : Event.free p = event at next'
  cases next with
  | null =>
      cases next' with
      | null => rfl
      | release _ _ => cases isEvent
      | refuse _ => cases isEvent
      | grant _ _ _ _ _ => cases isEvent
      | write => cases isEvent
  | release shape _ =>
      cases next' with
      | null => cases isEvent
      | release shape' _ =>
          have same := Nat.add_right_cancel (Event.free.inj isEvent)
          rw [shape] at tiles shape'
          obtain ⟨rfl, rfl, rfl⟩ := tiles_split_unique low high _ _ _ _ _ _ tiles shape' same
          rfl
      | refuse _ => cases isEvent
      | grant _ _ _ _ _ => cases isEvent
      | write => cases isEvent

def layoutSystem (cap mapped : Nat) : System Layout Event :=
  ⟨fun layout => layout = ⟨[whole mapped cap], [mapped]⟩, LayoutStep⟩

structure Related (cap mapped : Nat) (c : Client) (layout : Layout) : Prop where
  rep : Rep c.heap layout
  consistent : Consistent layout
  live : c.live.Perm ((usedChunks layout.chunks).map (·.addr + 32))
  base : c.heap.heapBase = mapped
  fin : c.heap.heapEnd = mapped + initCap cap

section Bounds
variable (s : Heap) (h : Nat)

theorem setSize_base (size : Nat) (free : Bool) :
    (setSize s h size free).heapBase = s.heapBase ∧ (setSize s h size free).heapEnd = s.heapEnd :=
  ⟨rfl, rfl⟩

theorem flInsert_base :
    (flInsert s h).heapBase = s.heapBase ∧ (flInsert s h).heapEnd = s.heapEnd :=
  ⟨rfl, rfl⟩

theorem flRemove_base :
    (flRemove s h).heapBase = s.heapBase ∧ (flRemove s h).heapEnd = s.heapEnd := by
  unfold flRemove
  dsimp only
  split <;> split <;> exact ⟨rfl, rfl⟩

theorem takeChunk_base (need : Nat) :
    (takeChunk s h need).heapBase = s.heapBase ∧ (takeChunk s h need).heapEnd = s.heapEnd := by
  unfold takeChunk
  dsimp only
  split <;> simp only [setSize_base, flInsert_base, flRemove_base, and_self]

theorem coalesceNext_base :
    (coalesceNext s h).heapBase = s.heapBase ∧ (coalesceNext s h).heapEnd = s.heapEnd := by
  unfold coalesceNext
  dsimp only
  split <;> simp only [setSize_base, flRemove_base, and_self]

theorem coalescePrev_base :
    (coalescePrev s h).1.heapBase = s.heapBase ∧ (coalescePrev s h).1.heapEnd = s.heapEnd := by
  unfold coalescePrev
  dsimp only
  split <;> simp only [setSize_base, flRemove_base, and_self]

theorem myFree_base (p : Nat) (valid : p ≠ 0) :
    (myFree s p).heapBase = s.heapBase ∧ (myFree s p).heapEnd = s.heapEnd := by
  generalize header : Word.sub p hdrSz = a
  rw [myFree_header s a p valid header]
  simp only [flInsert_base, coalescePrev_base, coalesceNext_base, setSize_base, and_self]

end Bounds

section Steps
variable {cap mapped : Nat} {before after : Client} {layout : Layout}

theorem related_started (c : Client) (started : Started cap mapped c) :
    Related cap mapped c ⟨[whole mapped cap], [mapped]⟩ := by
  obtain ⟨-, -, success, memory, rfl⟩ := started
  refine ⟨rep_myInit memory mapped cap success, ⟨List.isChain_singleton _, ?_⟩, ?_, rfl, ?_⟩
  · simp [freeAddrs, whole]
  · simp [usedChunks, whole]
  · exact Word.add_exact _ _ success.below

theorem live_chunk (related : Related cap mapped before layout) (p : Nat) (held : p ∈ before.live) :
    ∃ c ∈ layout.chunks, c.free = false ∧ p = c.addr + 32 := by
  obtain ⟨c, member, rfl⟩ := List.mem_map.mp (related.live.mem_iff.mp held)
  obtain ⟨inside, used⟩ := (mem_usedChunks _).mp member
  exact ⟨c, inside, used, rfl⟩

theorem related_malloc (related : Related cap mapped before layout) (fuel req p : Nat) (heap : Heap)
    (returned : myMalloc fuel before.heap req = some (heap, p)) :
    ∃ layout', LayoutStep layout (.malloc req p) layout' ∧
      Related cap mapped ⟨heap, if p = 0 then before.live else p :: before.live⟩ layout' := by
  obtain ⟨rep, consistent, live, base, fin⟩ := related
  rcases myMalloc_cases _ _ layout rep consistent fuel req p returned with
    ⟨rfl, rfl, full⟩ | ⟨wanted, front, c, rest, shape, free, fits, first, rfl, rfl⟩
  · exact ⟨layout, .refuse full, rep, consistent, live, base, fin⟩
  · have result := rep_myMalloc _ layout rep consistent front rest c shape free req fits
    have bounds := takeChunk_base before.heap c.addr (needOf req)
    refine ⟨_, .grant wanted shape free fits first, result.1, result.2, ?_, bounds.1.trans base,
      bounds.2.trans fin⟩
    have used := (usedChunks_takeLayout front rest layout.freeList free (needOf req)).map (·.addr + 32)
    rw [← shape] at used
    exact (live.cons (c.addr + 32)).trans used.symm

theorem related_free (related : Related cap mapped before layout) (p : Nat)
    (held : p = 0 ∨ p ∈ before.live) :
    ∃ layout', LayoutStep layout (.free p) layout' ∧
      Related cap mapped ⟨myFree before.heap p, before.live.erase p⟩ layout' := by
  by_cases isNull : p = 0
  · subst isNull
    have absent : 0 ∉ before.live := by
      intro inside
      obtain ⟨c, -, -, same⟩ := live_chunk related 0 inside
      omega
    refine ⟨layout, .null, ?_⟩
    rw [List.erase_of_not_mem absent]
    exact related
  · have inside := held.resolve_left isNull
    obtain ⟨c, member, used, rfl⟩ := live_chunk related p inside
    obtain ⟨rep, consistent, live, base, fin⟩ := related
    obtain ⟨front, rest, shape⟩ := List.append_of_mem member
    obtain ⟨chunks, freeList⟩ := layout
    simp only at shape
    subst shape
    have bounds := myFree_base before.heap (c.addr + 32) isNull
    refine ⟨_, .release rfl used, rep_myFree _ rep used consistent,
      consistent_releaseLayout used consistent, ?_, bounds.1.trans base, bounds.2.trans fin⟩
    rw [usedChunks_releaseLayout used consistent]
    simp only [usedChunks_append, usedChunks_used used, List.map_append, List.map_cons] at live ⊢
    exact perm_erase_middle _ _ _ _ live

theorem payload_not_metadata (related : Related cap mapped before layout) (p address : Nat)
    (held : p ∈ before.live) (inside : Payload before.heap p address) :
    ∀ c ∈ layout.chunks, ¬ Metadata c address := by
  obtain ⟨d, member, used, rfl⟩ := live_chunk related p held
  have size := rep_csz layout related.rep member
  simp only [Payload, hdrSz_eq, ftrSz_eq, Nat.add_sub_cancel, size] at inside
  intro c other metadata
  have room := (rep_placed _ layout related.rep d member).room
  have room' := (rep_placed _ layout related.rep c other).room
  unfold Metadata at metadata
  rcases rep_apart _ layout related.rep c d other member with rfl | apart
  · omega
  · unfold Segment.Apart at apart
    omega

theorem related_write (related : Related cap mapped before layout) (p address : Nat) (value : UInt8)
    (held : p ∈ before.live) (inside : Payload before.heap p address) :
    Related cap mapped { before with heap.memory := poke before.heap.memory address value } layout := by
  have outside := payload_not_metadata related p address held inside
  refine ⟨rep_frame _ layout related.rep _ ?_, related.consistent, related.live, related.base, related.fin⟩
  intro c member byte metadata
  have different : byte ≠ address := fun same => outside c member (same ▸ metadata)
  simp [poke, different]

end Steps

theorem freelist_simulation (cap mapped : Nat) :
    Simulation (system cap mapped) (layoutSystem cap mapped) (Related cap mapped) := by
  constructor
  · intro c started
    exact ⟨_, rfl, related_started c started⟩
  · intro before layout event after related next
    cases next with
    | malloc _ returned => exact related_malloc related _ _ _ _ returned
    | free held => exact related_free related _ held
    | write held inside => exact ⟨layout, .write, related_write related _ _ _ held inside⟩

theorem run_mapped (cap mapped : Nat) (c : Client) (run : Run cap mapped c) :
    Region mapped (initCap cap) := by
  induction run with
  | start initial => exact initial.2.2.1
  | step _ _ ih => exact ih

theorem run_related (cap mapped : Nat) (c : Client) (run : Run cap mapped c) :
    ∃ layout, Related cap mapped c layout := by
  obtain ⟨layout, -, related⟩ := simulation_reachable (freelist_simulation cap mapped) c run
  exact ⟨layout, related⟩

end LinuxMemory.Freelist
