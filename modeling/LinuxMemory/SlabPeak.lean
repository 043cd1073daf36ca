import LinuxMemory.SlabSizes
import LinuxMemory.Capacity

/-!
How many slabs the cache maps. A slab leaves the partial chain only when it is
full and comes back when it no longer is, so a region is asked for only when all
slabs are full: the cache is a supply that is enlarged on demand.
-/

namespace LinuxMemory.Slab

open ByteMemory LinkedList Transition

section Supply
variable {c : Client} {l : Layout}

theorem nodup_slabs (rep : Rep c.cache l) (part : Nat → List Nat)
    (once : ∀ s ∈ l.slabs, (part s).Nodup)
    (inside : ∀ s ∈ l.slabs, part s ⊆ objects c.cache.objSz c.cache.objsPerSlab s) :
    (l.slabs.flatMap part).Nodup := by
  apply List.nodup_flatMap.mpr
  refine ⟨once, (linked_nodup _ _ rep.all).pairwise_of_forall_ne ?_⟩
  intro s inSlabs t inSlabs' different o member member'
  exact different (object_owner rep t s o inSlabs' inSlabs (inside t inSlabs' member')
    (inside s inSlabs member))

theorem length_slabs (objSz count : Nat) (slabs : List Nat) :
    (slabs.flatMap (objects objSz count)).length = slabs.length * count := by
  induction slabs with
  | nil => exact (Nat.zero_mul _).symm
  | cons s slabs ih =>
      rw [List.flatMap_cons, List.length_append, ih, List.length_cons, Nat.succ_mul, Nat.add_comm,
        objects, List.length_map, List.length_range]

/-- The live objects and the free ones are the objects of all slabs, each once. -/
theorem related_supply (related : Related c l) :
    c.live.length + (l.slabs.flatMap l.free).length = l.slabs.length * c.cache.objsPerSlab := by
  have rep := related.rep
  have isObject : ∀ s ∈ l.slabs, l.free s ⊆ objects c.cache.objSz c.cache.objsPerSlab s :=
    fun s inSlabs => (rep.carved s inSlabs).objects
  -- an object of a slab is live exactly if it is not on the free list
  have parts : (c.live ++ l.slabs.flatMap l.free).Perm
      (l.slabs.flatMap (objects c.cache.objSz c.cache.objsPerSlab)) := by
    apply (List.perm_ext_iff_of_nodup ?_ ?_).mpr
    · intro o
      simp only [List.mem_append, List.mem_flatMap]
      constructor
      · rintro (isLive | ⟨s, inSlabs, isFree⟩)
        · obtain ⟨s, inSlabs, member, -⟩ := (related.live o).mp isLive
          exact ⟨s, inSlabs, member⟩
        · exact ⟨s, inSlabs, isObject s inSlabs isFree⟩
      · rintro ⟨s, inSlabs, member⟩
        by_cases isFree : o ∈ l.free s
        · exact Or.inr ⟨s, inSlabs, isFree⟩
        · exact Or.inl ((related.live o).mpr ⟨s, inSlabs, member, isFree⟩)
    · apply List.nodup_append.mpr
      refine ⟨related.distinct, nodup_slabs rep l.free ?_ isObject, ?_⟩
      · exact fun s inSlabs => linked_nodup _ _ (rep.carved s inSlabs).links
      · rintro o isLive o' isFree rfl
        obtain ⟨s, inSlabs, isFree⟩ := List.mem_flatMap.mp isFree
        exact (live_iff related s inSlabs o (isObject s inSlabs isFree)).mp isLive isFree
    · apply nodup_slabs rep _ _ fun s _ o member => member
      exact fun s _ => List.nodup_range.map fun i j same => object_injective rep.geometry i j same
  rw [← length_slabs c.cache.objSz, ← parts.length_eq, List.length_append]

theorem chain_empty (rep : Rep c.cache l) :
    c.cache.partialSlabs = 0 ↔ (l.slabs.flatMap l.free).length = 0 := by
  rw [linked_null_iff _ _ rep.chain, List.length_eq_zero_iff, List.flatMap_eq_nil_iff,
    List.eq_nil_iff_forall_not_mem]
  constructor
  · intro none s inSlabs
    by_contra some
    exact none s ((rep.exact s).mpr ⟨inSlabs, some⟩)
  · intro none s listed
    obtain ⟨inSlabs, some⟩ := (rep.exact s).mp listed
    exact some (none s inSlabs)

/-- The demand that the cache meets, and the slabs it meets it with. -/
def demand (state : Client × Nat) : Capacity.Level :=
  ⟨state.1.regions.length, state.1.live.length, state.2⟩

theorem move_alloc (related : Related c l) (mapped : Option Nat) (p peak : Nat) (cache : Cache)
    (live regions : List Nat) (success : ∀ s ∈ mapped, Fresh c.regions s)
    (returned : cacheAlloc c.cache mapped = some (cache, p))
    (holds : live = if p = 0 then c.live else p :: c.live)
    (maps : regions = if c.cache.partialSlabs = 0 then mapped.toList ++ c.regions else c.regions) :
    Capacity.Move c.cache.objsPerSlab (demand (c, peak))
      (demand (⟨cache, live, regions⟩, max peak live.length)) := by
  have supply := related_supply related
  have empty := chain_empty related.rep
  rw [← related.regions] at supply empty
  rw [related.regions] at success
  subst holds maps
  rcases cacheAlloc_outcome related.rep mapped success with
    ⟨refused, chain, rfl⟩ | ⟨o, c', l', granted, valid, -⟩
  · obtain ⟨-, rfl⟩ := Prod.mk.inj (Option.some.inj (refused.symm.trans returned))
    rw [if_pos rfl, if_pos chain]
    exact Capacity.Move.stay
  · obtain ⟨-, rfl⟩ := Prod.mk.inj (Option.some.inj (granted.symm.trans returned))
    rw [if_neg valid]
    by_cases chain : c.cache.partialSlabs = 0
    · cases mapped with
      -- a grant needs a slab, and none was mapped
      | none =>
          have refused : cacheAlloc c.cache none = some (c.cache, 0) := by
            simp [cacheAlloc, chain, newSlab]
          exact absurd (Prod.mk.inj (Option.some.inj (granted.symm.trans refused))).2 valid
      -- no free object is left in any slab, so all objects are live
      | some s =>
          have full : c.live.length = c.regions.length * c.cache.objsPerSlab := by
            rw [← supply, empty.mp chain, Nat.add_zero]
          rw [if_pos chain]
          exact Capacity.Move.enlarge full
    · have room : c.live.length < c.regions.length * c.cache.objsPerSlab := by
        have some := Nat.pos_of_ne_zero (fun none => chain (empty.mpr none))
        omega
      rw [if_neg chain]
      exact Capacity.Move.take room

theorem move_free (c : Client) (p peak : Nat) (cache : Cache) :
    Capacity.Move c.cache.objsPerSlab (demand (c, peak))
      (demand (⟨cache, c.live.erase p, c.regions⟩, max peak (c.live.erase p).length)) := by
  by_cases isLive : p ∈ c.live
  · rw [List.length_erase_of_mem isLive, demand, demand, List.length_erase_of_mem isLive]
    exact Capacity.Move.drop
  · rw [List.erase_of_not_mem isLive]
    exact Capacity.Move.stay

end Supply

def peakSystem (objSz : Nat) : System (Client × Nat) Event :=
  (system objSz).tracked fun c => c.live.length

/-- With the sizes that `cache_init` has settled, the cache is such a supply. -/
theorem supply_simulation (objSz : Nat) :
    Simulation (peakSystem objSz) (Capacity.system Event (32720 / storedSize objSz))
      fun state level => (∃ l, Related state.1 l) ∧
        state.1.cache.objsPerSlab = 32720 / storedSize objSz ∧ level = demand state := by
  constructor
  · rintro ⟨c, peak⟩ ⟨started, isPeak⟩
    obtain ⟨-, noLive, noRegions, -, memory, initialized⟩ := id started
    refine ⟨⟨0, 0, 0⟩, rfl, ⟨_, related_started started⟩, (cacheInit_sizes memory objSz initialized).2, ?_⟩
    simp only at isPeak
    rw [demand, isPeak, noLive, noRegions]
    rfl
  · rintro ⟨c, peak⟩ level event ⟨c', peak'⟩ ⟨⟨l, related⟩, count, rfl⟩ ⟨next, isPeak⟩
    have sizes := step_sizes c c' event next
    have related' := related_step related next
    refine ⟨demand (c', peak'), ?_, related', sizes.2.trans count, rfl⟩
    simp only at isPeak
    rw [isPeak, Capacity.system, ← count]
    cases next with
    | alloc success returned => exact move_alloc related _ _ peak _ _ _ success returned rfl rfl
    | free _ _ => exact move_free c _ peak _
    | write _ _ => exact Capacity.Move.stay

/-- The number of slabs on `all_slabs` is the peak number of live objects over the
objects of one slab, rounded up. -/
theorem slabs_by_peak (objSz : Nat) (c : Client) (peak : Nat)
    (run : Reachable (peakSystem objSz) (c, peak)) :
    ∃ slabs, Linked 0 (nextAll c.cache.memory) c.cache.allSlabs slabs ∧
      slabs.length = (peak + c.cache.objsPerSlab - 1) / c.cache.objsPerSlab := by
  obtain ⟨level, reached, ⟨l, related⟩, count, rfl⟩ :=
    simulation_reachable (supply_simulation objSz) (c, peak) run
  refine ⟨l.slabs, related.rep.all, ?_⟩
  rw [← related.regions]
  exact Capacity.units_exact related.rep.geometry.nonempty (count ▸ reached)

theorem slabs_by_peak_pair : ∃ cache, cacheAlloc pair.cache (some 4096) = some (cache, 20144) ∧
    ∃ slabs, Linked 0 (nextAll cache.memory) cache.allSlabs slabs ∧ slabs.length = 1 := by
  have evaluated : (cacheAlloc pair.cache (some 4096)).map (fun r => (r.1.objsPerSlab, r.2)) =
      some (2, 20144) := by
    decide +kernel
  obtain ⟨⟨cache, p⟩, returned, same⟩ := Option.map_eq_some_iff.mp evaluated
  obtain ⟨count, rfl⟩ := Prod.mk.inj same
  have begun : Reachable (peakSystem 16000) (pair, 0) := .start ⟨pair_started, rfl⟩
  have granted : Reachable (peakSystem 16000) (⟨cache, [20144], [4096]⟩, 1) :=
    .step begun ⟨.alloc first_fresh returned, rfl⟩
  obtain ⟨slabs, links, length⟩ := slabs_by_peak 16000 _ 1 granted
  refine ⟨cache, returned, slabs, links, ?_⟩
  simp only at count length
  rw [length, count]

end LinuxMemory.Slab
