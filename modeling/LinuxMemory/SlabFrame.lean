import LinuxMemory.SlabSizes
import LinuxMemory.Ownership

/-!
The bytes of a live object are its client's. Every header and every link that a
call writes lies outside the live objects, and what a call returns is read off
the layout, which the bytes in live objects are no part of.
-/

namespace LinuxMemory.Slab

open ByteMemory LinkedList Transition Ownership

/-! What a call writes. -/

section Writes
variable {c c' : Cache} {l : Layout}

theorem popObject_writes (o : Nat) (popped : popObject c = some (c', o)) :
    AgreeOutside c.memory c'.memory c.partialSlabs 48 := by
  unfold popObject at popped
  dsimp only at popped
  by_cases null : free c.memory c.partialSlabs = 0
  · rw [if_pos null] at popped
    cases popped
  · rw [if_neg null] at popped
    obtain ⟨rfl, -⟩ := Prod.mk.inj (Option.some.inj popped)
    have writes : ∀ value value', AgreeOutside c.memory
        (setInUse (setFree c.memory c.partialSlabs value) c.partialSlabs value') c.partialSlabs 48 := by
      intro value value'
      apply agreeOutside_trans _ (setFree c.memory c.partialSlabs value)
      · exact agreeOutside_store _ 8 _ _ _ 48 (by omega) (by omega)
      · exact agreeOutside_store _ 4 _ _ _ 48 (by omega) (by omega)
    split <;> exact writes _ _

theorem pushObject_writes (c : Cache) (s p byte : Nat) (header : byte < s ∨ s + 48 ≤ byte)
    (link : byte < p ∨ p + 8 ≤ byte) : (pushObject c s p).memory byte = c.memory byte := by
  have linked : setNext c.memory p (free c.memory s) byte = c.memory byte := store_outside _ _ _ _ _ link
  have field : ∀ (m : Memory) (width offset value : Nat), offset + width ≤ 48 →
      store m width (s + offset) value byte = m byte := by
    intro m width offset value inside
    apply store_outside
    omega
  have pushed : ∀ value, setInUse (setFree (setNext c.memory p (free c.memory s)) s p) s value byte =
      c.memory byte := fun value =>
    (field _ 4 24 value (by decide)).trans ((field _ 8 16 p (by decide)).trans linked)
  unfold pushObject
  dsimp only
  split
  · exact (field _ 8 8 _ (by decide)).trans (pushed _)
  · exact pushed _

theorem object_header (rep : Rep c l) (s q byte : Nat) (inSlabs : s ∈ l.slabs)
    (held : Handed c.objSz c.objsPerSlab l q) (inside : Inside (q, c.objSz) byte) :
    byte < s ∨ s + 48 ≤ byte := by
  obtain ⟨t, inSlabs', member, -⟩ := held
  obtain ⟨low, high⟩ := inside
  have bounds := object_bounds rep.geometry q member
  have room := rep.geometry.fits
  by_cases same : s = t
  · omega
  · have apart := rep.apart s inSlabs t inSlabs' same
    omega

theorem objects_disjoint (rep : Rep c l) (p q : Nat) (held : Handed c.objSz c.objsPerSlab l p)
    (held' : Handed c.objSz c.objsPerSlab l q) (different : p ≠ q) :
    Ownership.Separate (p, c.objSz) (q, c.objSz) := by
  obtain ⟨s, inSlabs, member, -⟩ := held
  obtain ⟨t, inSlabs', member', -⟩ := held'
  by_cases same : s = t
  · subst same
    exact objects_apart p q member member' different
  · have bounds := object_bounds rep.geometry p member
    have bounds' := object_bounds rep.geometry q member'
    have room := rep.geometry.fits
    have apart := rep.apart s inSlabs t inSlabs' same
    unfold Ownership.Separate
    omega

theorem cacheAlloc_untouched (rep : Rep c l) (mapped : Option Nat) (o q byte : Nat)
    (success : ∀ s ∈ mapped, Fresh l.slabs s) (returned : cacheAlloc c mapped = some (c', o))
    (held : Handed c.objSz c.objsPerSlab l q) (inside : Inside (q, c.objSz) byte) :
    c'.memory byte = c.memory byte := by
  unfold cacheAlloc at returned
  by_cases empty : c.partialSlabs = 0
  · rw [if_pos empty] at returned
    cases mapped with
    | none =>
        simp only [newSlab, ↓reduceIte] at returned
        obtain ⟨rfl, -⟩ := Prod.mk.inj (Option.some.inj returned)
        rfl
    | some s =>
        -- the new slab and the header that is popped lie in the fresh region
        obtain ⟨placed, apart⟩ := fresh_placed _ s (success s rfl)
        have all := head_word _ _ _ rep.all (slab_word rep)
        obtain ⟨created, result⟩ := newSlab_created rep.geometry placed all (by rw [empty]; decide)
        have outside := created.outside
        have head := created.heads.2
        simp only [result, if_neg (Nat.ne_of_gt placed.valid)] at returned
        have popped := popObject_writes o returned
        rw [head] at popped
        obtain ⟨t, inSlabs, member, -⟩ := held
        have bounds := object_bounds rep.geometry q member
        have room := rep.geometry.fits
        have away := apart t inSlabs
        obtain ⟨low, high⟩ := inside
        dsimp only at low high
        rw [popped byte (by omega), outside byte (by omega)]
  · rw [if_neg empty] at returned
    obtain ⟨rest, partials⟩ := partials_head rep empty
    have inSlabs := ((rep.exact c.partialSlabs).mp (partials ▸ List.mem_cons_self)).1
    exact popObject_writes o returned byte (object_header rep _ q byte inSlabs held inside)

theorem pushObject_untouched (rep : Rep c l) (s p q byte : Nat) (inSlabs : s ∈ l.slabs)
    (held : Handed c.objSz c.objsPerSlab l p) (held' : Handed c.objSz c.objsPerSlab l q)
    (different : p ≠ q) (inside : Inside (q, c.objSz) byte) :
    (pushObject c s p).memory byte = c.memory byte := by
  have header := object_header rep s q byte inSlabs held' inside
  have apart := objects_disjoint rep p q held held' different
  have size := rep.geometry.large
  obtain ⟨low, high⟩ := inside
  unfold Ownership.Separate at apart
  exact pushObject_writes c s p byte header (by omega)

end Writes

/-! A run: the cache, the regions that `mmap` has returned, and what the clients
hold with the values they have written. -/

structure Owner where
  cache : Cache
  regions : List Nat
  held : Holdings

def Owner.client (o : Owner) : Client := ⟨o.cache, o.held.blocks.map (·.1), o.regions⟩

inductive OwnerStep : Owner → Event → Owner → Prop where
  | alloc {o : Owner} {mapped : Option Nat} {p : Nat} {cache : Cache}
      (success : ∀ s ∈ mapped, Fresh o.regions s)
      (returned : cacheAlloc o.cache mapped = some (cache, p)) :
      OwnerStep o (.alloc mapped p) ⟨cache,
        if o.cache.partialSlabs = 0 then mapped.toList ++ o.regions else o.regions,
        if p = 0 then o.held else o.held.take (p, o.cache.objSz)⟩
  | free {o : Owner} {fuel p : Nat} {cache : Cache} (held : (p, o.cache.objSz) ∈ o.held.blocks)
      (returned : cacheFree fuel o.cache p = some cache) :
      OwnerStep o (.free p) ⟨cache, o.regions, o.held.drop (p, o.cache.objSz)⟩
  | write {o : Owner} {p address : Nat} {value : UInt8} (held : (p, o.cache.objSz) ∈ o.held.blocks)
      (inside : Inside (p, o.cache.objSz) address) :
      OwnerStep o (.write address value) ⟨{ o.cache with memory := poke o.cache.memory address value },
        o.regions, o.held.write address value⟩

def ownerSystem (objSz : Nat) : System Owner Event :=
  ⟨fun o => Started objSz o.client ∧ o.held = Holdings.nothing, OwnerStep⟩

inductive Request where
  | alloc (mapped : Option Nat)
  | free (p : Nat)

def request : Event → Option Request
  | .alloc mapped _ => some (.alloc mapped)
  | .free p => some (.free p)
  | .write _ _ => none

structure Owned (objSz : Nat) (o : Owner) (l : Layout) : Prop where
  related : Related o.client l
  sizes : o.cache.objSz = storedSize objSz ∧ o.cache.objsPerSlab = 32720 / storedSize objSz
  objects : ∀ block ∈ o.held.blocks, block.2 = o.cache.objSz

section Owned
variable {objSz : Nat} {o : Owner} {l : Layout}

theorem owned_live (owned : Owned objSz o l) (block : Block) (held : block ∈ o.held.blocks) :
    block = (block.1, o.cache.objSz) ∧ Handed o.cache.objSz o.cache.objsPerSlab l block.1 :=
  ⟨Prod.ext rfl (owned.objects block held),
    (owned.related.live block.1).mp (List.mem_map_of_mem held)⟩

theorem owned_started (started : Started objSz o.client) (none : o.held = Holdings.nothing) :
    Owned objSz o ⟨[], [], fun _ => []⟩ := by
  have initialized := started.2.2.2.2.choose_spec
  refine ⟨related_started started, cacheInit_sizes _ objSz initialized, ?_⟩
  rw [none]
  simp [Holdings.nothing]

theorem owned_alloc (owned : Owned objSz o l) (mapped : Option Nat) (p : Nat) (cache : Cache)
    (success : ∀ s ∈ mapped, Fresh o.regions s)
    (returned : cacheAlloc o.cache mapped = some (cache, p)) :
    Owned objSz ⟨cache, if o.cache.partialSlabs = 0 then mapped.toList ++ o.regions else o.regions,
      if p = 0 then o.held else o.held.take (p, o.cache.objSz)⟩
        (l.alloc o.cache.objSz o.cache.objsPerSlab mapped).1 ∧
      p = (l.alloc o.cache.objSz o.cache.objsPerSlab mapped).2 ∧
      Untouched o.cache.memory cache.memory o.held.blocks := by
  obtain ⟨related, result⟩ := related_alloc owned.related mapped p cache success returned
  have kept := cacheAlloc_sizes mapped returned
  refine ⟨⟨?_, ⟨kept.1.trans owned.sizes.1, kept.2.trans owned.sizes.2⟩, ?_⟩, result, ?_⟩
  · by_cases null : p = 0
    · rw [if_pos null] at related ⊢
      exact related
    · rw [if_neg null] at related ⊢
      exact related
  · intro block member
    rw [show block.2 = o.cache.objSz from ?_]
    · exact kept.1.symm
    · by_cases null : p = 0
      · rw [if_pos null] at member
        exact owned.objects block member
      · rw [if_neg null] at member
        rcases List.mem_cons.mp member with rfl | older
        · rfl
        · exact owned.objects block older
  · intro block member byte inside
    obtain ⟨shape, handed⟩ := owned_live owned block member
    rw [shape] at inside
    have regions := owned.related.regions
    exact cacheAlloc_untouched owned.related.rep mapped p block.1 byte (regions ▸ success) returned
      handed inside

theorem owned_free (owned : Owned objSz o l) (fuel p : Nat) (cache : Cache)
    (held : (p, o.cache.objSz) ∈ o.held.blocks) (returned : cacheFree fuel o.cache p = some cache) :
    ∃ s ∈ l.slabs, p ∈ objects o.cache.objSz o.cache.objsPerSlab s ∧
      Owned objSz ⟨cache, o.regions, o.held.drop (p, o.cache.objSz)⟩ (l.push s p) ∧
      Untouched o.cache.memory cache.memory (o.held.drop (p, o.cache.objSz)).blocks := by
  have isLive : p ∈ o.client.live := List.mem_map.mpr ⟨_, held, rfl⟩
  obtain ⟨s, inSlabs, member, result, related⟩ :=
    related_free owned.related fuel p cache isLive returned
  have kept := cacheFree_sizes fuel returned
  have distinct := owned.related.distinct
  have erased := erase_address distinct held
  refine ⟨s, inSlabs, member, ⟨?_, ⟨kept.1.trans owned.sizes.1, kept.2.trans owned.sizes.2⟩, ?_⟩, ?_⟩
  · simp only [Owner.client, Holdings.drop, erased]
    exact related
  · intro block listed
    exact (owned.objects block (List.mem_of_mem_erase listed)).trans kept.1.symm
  · intro block listed byte inside
    obtain ⟨shape, handed⟩ := owned_live owned block (List.mem_of_mem_erase listed)
    have isOther : block.1 ≠ p := address_dropped distinct held listed
    rw [shape] at inside
    rw [result]
    exact pushObject_untouched owned.related.rep s p block.1 byte inSlabs
      ((owned.related.live p).mp isLive) handed (Ne.symm isOther) inside

theorem owned_write (owned : Owned objSz o l) (p address : Nat) (value : UInt8)
    (held : (p, o.cache.objSz) ∈ o.held.blocks) (inside : Inside (p, o.cache.objSz) address) :
    Owned objSz ⟨{ o.cache with memory := poke o.cache.memory address value }, o.regions,
      o.held.write address value⟩ l :=
  ⟨related_write owned.related p address value (List.mem_map.mpr ⟨_, held, rfl⟩) inside,
    owned.sizes, owned.objects⟩

end Owned

theorem owner_owned (objSz : Nat) (o : Owner) (run : Reachable (ownerSystem objSz) o) :
    (∃ l, Owned objSz o l) ∧ Kept o.cache.memory o.held := by
  refine reachable_kept (ownerSystem objSz) (·.cache.memory) (·.held)
    (fun o => ∃ l, Owned objSz o l) ?_ ?_ o run
  · rintro first ⟨started, none⟩
    exact ⟨⟨_, owned_started started none⟩, none⟩
  · rintro before event after ⟨l, owned⟩ next
    cases next with
    | @alloc mapped p cache success returned =>
        obtain ⟨owned', -, same⟩ := owned_alloc owned mapped p cache success returned
        exact ⟨⟨_, owned'⟩, change_alloc _ _ _ p _ same⟩
    | @free fuel p cache held returned =>
        obtain ⟨s, -, -, owned', same⟩ := owned_free owned fuel p cache held returned
        exact ⟨⟨_, owned'⟩, .drop same⟩
    | @write p address value held inside =>
        exact ⟨⟨l, owned_write owned p address value held inside⟩, .write⟩

theorem layout_lockstep (objSz : Nat) : Lockstep (ownerSystem objSz) request
    fun left right => ∃ l, Owned objSz left l ∧ Owned objSz right l := by
  constructor
  · rintro left right ⟨l, owned, owned'⟩
    exact ⟨l, owned', owned⟩
  · rintro left right event after ⟨l, owned, owned'⟩ quiet next
    cases next with
    | alloc _ _ => cases quiet
    | free _ _ => cases quiet
    | write held inside => exact ⟨l, owned_write owned _ _ _ held inside, owned'⟩
  · rintro left right event event' after after' ⟨l, owned, owned'⟩ same asked next next'
    have size := owned.sizes.1.trans owned'.sizes.1.symm
    have count := owned.sizes.2.trans owned'.sizes.2.symm
    cases next with
    | @alloc mapped p cache success returned =>
        cases next' with
        | @alloc mapped' p' cache' success' returned' =>
            obtain rfl : mapped = mapped' := by simpa [request] using same
            obtain ⟨next, result, -⟩ := owned_alloc owned mapped p cache success returned
            obtain ⟨next', result', -⟩ := owned_alloc owned' mapped p' cache' success' returned'
            rw [size, count] at result
            have layout : l.alloc left.cache.objSz left.cache.objsPerSlab mapped =
                l.alloc right.cache.objSz right.cache.objsPerSlab mapped := by
              rw [size, count]
            exact ⟨by rw [result, result'], _, layout ▸ next, next'⟩
        | free _ _ => cases same
        | write _ _ => cases same
    | @free fuel p cache held returned =>
        cases next' with
        | @free fuel' p' cache' held' returned' =>
            obtain rfl : p = p' := by simpa [request] using same
            obtain ⟨s, inSlabs, member, next, -⟩ := owned_free owned fuel p cache held returned
            obtain ⟨t, inSlabs', member', next', -⟩ := owned_free owned' fuel' p cache' held' returned'
            rw [← size, ← count] at member'
            rw [object_owner owned.related.rep s t p inSlabs inSlabs' member member'] at next'
            exact ⟨rfl, _, next, next'⟩
        | alloc _ _ => cases same
        | write _ _ => cases same
    | write _ _ => cases asked

/-- Whatever the clients of the objects do, a byte that was written in a live
object keeps its value until the object is freed or the byte is written again,
no call touches a live object other than the one it frees, and the pointers
returned depend on the calls alone. -/
theorem objects_kept (objSz : Nat) :
    (∀ o, Reachable (ownerSystem objSz) o → Kept o.cache.memory o.held ∧
      (∀ mapped p cache, (∀ s ∈ mapped, Fresh o.regions s) →
        cacheAlloc o.cache mapped = some (cache, p) →
        Untouched o.cache.memory cache.memory o.held.blocks) ∧
      ∀ fuel p cache, (p, o.cache.objSz) ∈ o.held.blocks → cacheFree fuel o.cache p = some cache →
        Untouched o.cache.memory cache.memory (o.held.drop (p, o.cache.objSz)).blocks) ∧
    ∀ first first' last last' events events', (ownerSystem objSz).start first →
      (ownerSystem objSz).start first' → Path (ownerSystem objSz) first events last →
      Path (ownerSystem objSz) first' events' last' →
      events.filterMap request = events'.filterMap request →
      events.filter (fun event => (request event).isSome) =
        events'.filter (fun event => (request event).isSome) := by
  constructor
  · intro o run
    obtain ⟨⟨l, owned⟩, kept⟩ := owner_owned objSz o run
    refine ⟨kept, ?_, ?_⟩
    · intro mapped p cache success returned
      exact (owned_alloc owned mapped p cache success returned).2.2
    · intro fuel p cache held returned
      obtain ⟨s, -, -, -, same⟩ := owned_free owned fuel p cache held returned
      exact same
  · intro first first' last last' events events' started started' path path' same
    have twins : ∃ l, Owned objSz first l ∧ Owned objSz first' l :=
      ⟨_, owned_started started.1 started.2, owned_started started'.1 started'.2⟩
    exact (lockstep_events (layout_lockstep objSz) _ _ _ _ _ _ twins path path' same).1

theorem objects_kept_pair : ∃ c c', cacheAlloc pair.cache (some 4096) = some (c, 20144) ∧
    cacheAlloc { c with memory := poke c.memory 20147 7 } none = some (c', 4144) ∧
      c'.memory 20147 = 7 := by
  have first : (cacheAlloc pair.cache (some 4096)).map (fun r => (r.1.objSz, r.2)) =
      some (16000, 20144) := by
    decide +kernel
  have second : ((cacheAlloc pair.cache (some 4096)).bind fun r =>
      (cacheAlloc { r.1 with memory := poke r.1.memory 20147 7 } none).map (·.2)) = some 4144 := by
    decide +kernel
  obtain ⟨⟨c, p⟩, returned, same⟩ := Option.map_eq_some_iff.mp first
  obtain ⟨size, rfl⟩ := Prod.mk.inj same
  rw [returned, Option.bind_some] at second
  obtain ⟨⟨c', p⟩, returned', rfl⟩ := Option.map_eq_some_iff.mp second
  have begun : Reachable (ownerSystem 16000) ⟨pair.cache, [], Holdings.nothing⟩ :=
    .start ⟨pair_started, rfl⟩
  have granted : Reachable (ownerSystem 16000)
      ⟨c, [4096], Holdings.nothing.take (20144, 16000)⟩ :=
    .step begun (@OwnerStep.alloc ⟨pair.cache, [], Holdings.nothing⟩ _ _ c first_fresh returned)
  have block : (20144, c.objSz) ∈ (Holdings.nothing.take (20144, 16000)).blocks :=
    size ▸ List.mem_cons_self
  have inside : Inside (20144, c.objSz) 20147 := by
    rw [size]
    decide
  have written := Reachable.step granted
    (@OwnerStep.write ⟨c, [4096], Holdings.nothing.take (20144, 16000)⟩ _ _ 7 block inside)
  have kept := ((objects_kept 16000).1 _ written).1
  have same := ((objects_kept 16000).1 _ written).2.1 none 4144 c' (by simp) returned' _ block 20147 inside
  refine ⟨c, c', returned, returned', same.trans ?_⟩
  exact kept _ block 20147 inside 7 (by simp [Holdings.write])

end LinuxMemory.Slab
