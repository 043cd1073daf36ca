import LinuxMemory.SlabCalls

/-!
Whole runs of the slab cache. Between two calls the client holds exactly the
objects that no free list holds, every slab counts its own, and the partial
chain holds the slabs that are not full.
-/

namespace LinuxMemory.Slab

open ByteMemory LinkedList Transition

structure Related (c : Client) (l : Layout) : Prop where
  rep : Rep c.cache l
  regions : c.regions = l.slabs
  distinct : c.live.Nodup
  live : ∀ p, p ∈ c.live ↔ Handed c.cache.objSz c.cache.objsPerSlab l p

section Steps
variable {objSz : Nat} {c : Client} {l : Layout}

theorem related_started (started : Started objSz c) : Related c ⟨[], [], fun _ => []⟩ := by
  obtain ⟨-, noLive, noRegions, nonempty, memory, initialized⟩ := started
  obtain ⟨geometry, noSlabs, noPartials⟩ := geometry_cacheInit memory objSz c.cache initialized nonempty
  refine ⟨⟨geometry, noSlabs, noPartials, ?_, ?_, ?_, ?_, ?_⟩, noRegions, ?_, ?_⟩
  · simp
  · simp
  · simp
  · simp
  · simp
  · rw [noLive]
    exact List.nodup_nil
  · simp [noLive, Handed]

theorem related_alloc (related : Related c l) (mapped : Option Nat) (p : Nat) (cache : Cache)
    (success : ∀ s ∈ mapped, Fresh c.regions s)
    (returned : cacheAlloc c.cache mapped = some (cache, p)) :
    Related ⟨cache, if p = 0 then c.live else p :: c.live,
      if c.cache.partialSlabs = 0 then mapped.toList ++ c.regions else c.regions⟩
        (l.alloc c.cache.objSz c.cache.objsPerSlab mapped).1 ∧
      p = (l.alloc c.cache.objSz c.cache.objsPerSlab mapped).2 := by
  obtain ⟨rep, regions, distinct, live⟩ := related
  rw [regions] at success ⊢
  rcases cacheAlloc_outcome rep mapped success with
    ⟨refused, empty, rfl⟩ |
    ⟨o, c', l', granted, valid, rep', slabs, free, taken, layout⟩
  · obtain ⟨rfl, rfl⟩ := Prod.mk.inj (Option.some.inj (refused.symm.trans returned))
    have layout : l.alloc c.cache.objSz c.cache.objsPerSlab none = (l, 0) := by
      unfold Layout.alloc
      rw [if_pos ((linked_null_iff _ _ rep.chain).mp empty)]
    rw [layout]
    refine ⟨⟨rep, ?_, distinct, live⟩, rfl⟩
    simp [empty]
  · obtain ⟨rfl, rfl⟩ := Prod.mk.inj (Option.some.inj (granted.symm.trans returned))
    rw [if_neg valid, layout]
    obtain ⟨isSize, isCount⟩ := cacheAlloc_sizes mapped granted
    refine ⟨⟨rep', slabs.symm,
      List.nodup_cons.mpr ⟨fun again => free ((live _).mp again), distinct⟩, ?_⟩, rfl⟩
    intro q
    simp only [List.mem_cons, isSize, isCount]
    rw [taken, live]

theorem related_free (related : Related c l) (fuel p : Nat) (cache : Cache) (held : p ∈ c.live)
    (returned : cacheFree fuel c.cache p = some cache) :
    ∃ s ∈ l.slabs, p ∈ objects c.cache.objSz c.cache.objsPerSlab s ∧
      cache = pushObject c.cache s p ∧ Related ⟨cache, c.live.erase p, c.regions⟩ (l.push s p) := by
  obtain ⟨rep, regions, distinct, live⟩ := related
  obtain ⟨isSize, isCount⟩ := cacheFree_sizes fuel returned
  obtain ⟨s, inSlabs, member, result, rep', taken⟩ :=
    cacheFree_outcome rep fuel p cache ((live p).mp held) returned
  refine ⟨s, inSlabs, member, result, rep', regions, distinct.erase p, fun q => ?_⟩
  simp only [isSize, isCount]
  rw [taken, ← live, distinct.mem_erase_iff, and_comm]

theorem related_write (related : Related c l) (p address : Nat) (value : UInt8) (held : p ∈ c.live)
    (inside : p ≤ address ∧ address < p + c.cache.objSz) :
    Related { c with cache.memory := poke c.cache.memory address value } l :=
  ⟨rep_write related.rep p address value ((related.live p).mp held) inside, related.regions,
    related.distinct, related.live⟩

theorem related_step (related : Related c l) {event : Event} {c' : Client} (next : Step c event c') :
    ∃ l', Related c' l' := by
  cases next with
  | alloc success returned => exact ⟨_, (related_alloc related _ _ _ success returned).1⟩
  | @free fuel p cache held returned =>
      by_cases isLive : p ∈ c.live
      · obtain ⟨s, -, -, -, related'⟩ := related_free related fuel p cache isLive returned
        exact ⟨_, related'⟩
      · have foreign := held.resolve_left isLive
        rw [related.regions] at foreign
        rw [cacheFree_foreign related.rep fuel p cache foreign returned, List.erase_of_not_mem isLive]
        exact ⟨l, related⟩
  | write held inside => exact ⟨l, related_write related _ _ _ held inside⟩

theorem run_related (objSz : Nat) (c : Client) (run : Run objSz c) : ∃ l, Related c l := by
  refine reachable_invariant (system objSz) (fun c => ∃ l, Related c l) ?_ ?_ c run
  · intro c started
    exact ⟨_, related_started started⟩
  · rintro before event after ⟨l, related⟩ next
    exact related_step related next

end Steps

/-! The state of the cache between two calls. -/

def slabObjects (c : Cache) (s : Nat) : List Nat :=
  (List.range (capacity c.memory s)).map fun i => base c.memory s + i * c.objSz

structure SlabInvariant (c : Cache) (live : List Nat) (s : Nat) : Prop where
  inside : ∀ o ∈ slabObjects c s,
    s + header ≤ o ∧ o + c.objSz ≤ s + slabBytes ∧ o % align = 0
  disjoint : (slabObjects c s).Pairwise fun left right => left + c.objSz ≤ right
  free : ∃ nodes, Linked 0 (next c.memory) (free c.memory s) nodes ∧ nodes.Nodup ∧
    (∀ o, o ∈ nodes ↔ o ∈ slabObjects c s ∧ o ∉ live) ∧
    inUse c.memory s + nodes.length = capacity c.memory s
  counted : inUse c.memory s = live.countP fun p => decide (p ∈ slabObjects c s)

structure CacheInvariant (c : Cache) (live regions : List Nat) : Prop where
  all : Linked 0 (nextAll c.memory) c.allSlabs regions
  slabs : ∀ s ∈ regions, SlabInvariant c live s
  apart : regions.Pairwise fun s t => s + slabBytes ≤ t ∨ t + slabBytes ≤ s
  chain : ∃ partials, Linked 0 (nextPartial c.memory) c.partialSlabs partials ∧ partials.Nodup ∧
    ∀ s, s ∈ partials ↔ s ∈ regions ∧ free c.memory s ≠ 0
  owned : ∀ p ∈ live, ∃ s ∈ regions, p ∈ slabObjects c s ∧
    ∀ t ∈ regions, p ∈ slabObjects c t → t = s
  distinct : live.Nodup

section Invariant
variable {c : Client} {l : Layout}

theorem slabObjects_eq (related : Related c l) (s : Nat) (inSlabs : s ∈ l.slabs) :
    slabObjects c.cache s = objects c.cache.objSz c.cache.objsPerSlab s := by
  unfold slabObjects objects object
  rw [(related.rep.carved s inSlabs).capacity, (related.rep.carved s inSlabs).base]

theorem live_iff (related : Related c l) (s : Nat) (inSlabs : s ∈ l.slabs) (o : Nat)
    (member : o ∈ objects c.cache.objSz c.cache.objsPerSlab s) : o ∈ c.live ↔ o ∉ l.free s := by
  rw [related.live]
  constructor
  · rintro ⟨t, inside, member', taken⟩
    rwa [object_owner related.rep s t o inSlabs inside member member'] at taken
  · exact fun taken => ⟨s, inSlabs, member, taken⟩

theorem live_count (related : Related c l) (s : Nat) (inSlabs : s ∈ l.slabs) :
    c.live.countP (fun p => decide (p ∈ objects c.cache.objSz c.cache.objsPerSlab s)) + (l.free s).length =
      c.cache.objsPerSlab := by
  have carved := related.rep.carved s inSlabs
  have distinct : (objects c.cache.objSz c.cache.objsPerSlab s).Nodup :=
    List.nodup_range.map (fun i j same => object_injective related.rep.geometry i j same)
  generalize shape : objects c.cache.objSz c.cache.objsPerSlab s = all at distinct ⊢
  -- the live objects of the slab and its free list are its objects, each once
  have parts : (c.live.filter (fun p => decide (p ∈ all)) ++ l.free s).Perm all := by
    apply (List.perm_ext_iff_of_nodup ?_ distinct).mpr
    · intro o
      have split := live_iff related s inSlabs o
      rw [shape] at split
      simp only [List.mem_append, List.mem_filter, decide_eq_true_eq]
      constructor
      · rintro (⟨-, member⟩ | isFree)
        · exact member
        · exact shape ▸ carved.objects o isFree
      · intro member
        by_cases isFree : o ∈ l.free s
        · exact Or.inr isFree
        · exact Or.inl ⟨(split member).mpr isFree, member⟩
    · apply List.nodup_append.mpr
      refine ⟨related.distinct.filter _, linked_nodup _ _ carved.links, ?_⟩
      rintro o isLive o' isFree rfl
      simp only [List.mem_filter, decide_eq_true_eq] at isLive
      exact (live_iff related s inSlabs o (shape ▸ isLive.2)).mp isLive.1 isFree
  have lengths := parts.length_eq
  rw [List.length_append, ← List.countP_eq_length_filter] at lengths
  rw [lengths, ← shape, objects, List.length_map, List.length_range]

theorem related_slab (related : Related c l) (s : Nat) (inSlabs : s ∈ l.slabs) :
    SlabInvariant c.cache c.live s := by
  have carved := related.rep.carved s inSlabs
  have counted := related.rep.counted s inSlabs
  have shape := slabObjects_eq related s inSlabs
  constructor
  · rw [shape, header_eq, slabBytes_eq]
    intro o member
    have bounds := object_bounds related.rep.geometry o member
    have room := related.rep.geometry.fits
    have aligned := (related.rep.placed s inSlabs).aligned
    unfold align
    omega
  · rw [shape, objects, List.pairwise_map]
    apply List.Pairwise.imp _ List.pairwise_lt_range
    intro i j before
    have step : (i + 1) * c.cache.objSz ≤ j * c.cache.objSz := Nat.mul_le_mul_right _ before
    rw [Nat.succ_mul] at step
    unfold object
    omega
  · refine ⟨l.free s, carved.links, linked_nodup _ _ carved.links, fun o => ?_, counted.trans carved.capacity.symm⟩
    rw [shape]
    constructor
    · intro isFree
      have member := carved.objects o isFree
      exact ⟨member, fun isLive => (live_iff related s inSlabs o member).mp isLive isFree⟩
    · rintro ⟨member, notLive⟩
      by_contra notFree
      exact notLive ((live_iff related s inSlabs o member).mpr notFree)
  · rw [shape]
    have count := live_count related s inSlabs
    omega

theorem related_invariant (related : Related c l) : CacheInvariant c.cache c.live c.regions := by
  rw [related.regions]
  constructor
  · exact related.rep.all
  · exact fun s inSlabs => related_slab related s inSlabs
  · rw [slabBytes_eq]
    exact (linked_nodup _ _ related.rep.all).pairwise_of_forall_ne related.rep.apart
  · refine ⟨l.partials, related.rep.chain, linked_nodup _ _ related.rep.chain, fun s => ?_⟩
    rw [related.rep.exact]
    apply and_congr_right
    intro inSlabs
    exact not_congr (linked_null_iff _ _ (related.rep.carved s inSlabs).links).symm
  · intro p held
    obtain ⟨s, inSlabs, member, -⟩ := (related.live p).mp held
    refine ⟨s, inSlabs, by rwa [slabObjects_eq related s inSlabs], fun t inside member' => ?_⟩
    rw [slabObjects_eq related t inside] at member'
    exact object_owner related.rep s t p inSlabs inside member member'
  · exact related.distinct

end Invariant

/-- After every run the cache is as it should be, the next call returns, and a
call that has nothing to give or to take changes nothing. -/
theorem cache_invariant (objSz : Nat) (c : Client) (run : Run objSz c) :
    CacheInvariant c.cache c.live c.regions ∧
    (∀ mapped : Option Nat, (∀ s ∈ mapped, Fresh c.regions s) →
      ∃ cache p, cacheAlloc c.cache mapped = some (cache, p) ∧ (p = 0 → cache = c.cache)) ∧
    (∀ p, ∃ fuel cache, cacheFree fuel c.cache p = some cache) ∧
    (∀ fuel p cache, Foreign c.cache c.regions p → cacheFree fuel c.cache p = some cache →
      cache = c.cache) := by
  obtain ⟨l, related⟩ := run_related objSz c run
  refine ⟨related_invariant related, ?_, ?_, ?_⟩
  · intro mapped success
    rw [related.regions] at success
    rcases cacheAlloc_outcome related.rep mapped success with
      ⟨refused, -, -⟩ | ⟨o, cache, l', granted, valid, -⟩
    · exact ⟨c.cache, 0, refused, fun _ => rfl⟩
    · exact ⟨cache, o, granted, fun isNull => absurd isNull valid⟩
  · intro p
    exact ⟨_, cacheFree_returns related.rep _ p (Nat.lt_succ_self _)⟩
  · intro fuel p cache foreign returned
    rw [related.regions] at foreign
    exact cacheFree_foreign related.rep fuel p cache foreign returned

def pair : Client := ⟨⟨fun _ => 0, 0, 0, 16000, 2⟩, [], []⟩

theorem pair_started : Started 16000 pair := ⟨by decide, rfl, rfl, by decide, fun _ => 0, rfl⟩

theorem first_fresh : ∀ s ∈ some 4096, Fresh [] s := by
  rintro s ⟨⟩
  exact ⟨by decide, by decide, by decide, fun r listed => absurd listed List.not_mem_nil⟩

theorem cache_invariant_pair : ∃ cache, cacheAlloc pair.cache (some 4096) = some (cache, 20144) ∧
    CacheInvariant cache [20144] [4096] := by
  have evaluated : (cacheAlloc pair.cache (some 4096)).map (·.2) = some 20144 := by decide +kernel
  obtain ⟨⟨cache, p⟩, returned, rfl⟩ := Option.map_eq_some_iff.mp evaluated
  have granted : Run 16000 ⟨cache, [20144], [4096]⟩ :=
    .step (.start pair_started) (.alloc first_fresh returned)
  exact ⟨cache, returned, (cache_invariant 16000 _ granted).1⟩

end LinuxMemory.Slab
