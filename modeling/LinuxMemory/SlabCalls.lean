import LinuxMemory.SlabLayout

/-!
The cache's two lists of slabs next to the free list of every slab, and what
`cache_alloc` and `cache_free` do to them. A call changes one slab, so all the
others keep what they represent.
-/

namespace LinuxMemory.Slab

open ByteMemory LinkedList

/-! No call changes the sizes that `cache_init` has stored. -/

section Sizes
variable {c c' : Cache} {p : Nat}

theorem newSlab_sizes (c : Cache) (mapped : Option Nat) :
    (newSlab c mapped).1.objSz = c.objSz ∧ (newSlab c mapped).1.objsPerSlab = c.objsPerSlab := by
  cases mapped with
  | none => exact ⟨rfl, rfl⟩
  | some s => exact ⟨rfl, rfl⟩

theorem popObject_sizes (returned : popObject c = some (c', p)) :
    c'.objSz = c.objSz ∧ c'.objsPerSlab = c.objsPerSlab := by
  unfold popObject at returned
  dsimp only at returned
  by_cases null : free c.memory c.partialSlabs = 0
  · rw [if_pos null] at returned
    cases returned
  · rw [if_neg null] at returned
    obtain ⟨rfl, -⟩ := Prod.mk.inj (Option.some.inj returned)
    split <;> exact ⟨rfl, rfl⟩

theorem cacheAlloc_sizes (mapped : Option Nat) (returned : cacheAlloc c mapped = some (c', p)) :
    c'.objSz = c.objSz ∧ c'.objsPerSlab = c.objsPerSlab := by
  unfold cacheAlloc at returned
  by_cases empty : c.partialSlabs = 0
  · rw [if_pos empty] at returned
    have kept := newSlab_sizes c mapped
    generalize newSlab c mapped = created at returned kept
    by_cases null : created.2 = 0
    · simp only [null, ↓reduceIte] at returned
      obtain ⟨rfl, -⟩ := Prod.mk.inj (Option.some.inj returned)
      exact kept
    · simp only [null, ↓reduceIte] at returned
      have popped := popObject_sizes returned
      exact ⟨popped.1.trans kept.1, popped.2.trans kept.2⟩
  · rw [if_neg empty] at returned
    exact popObject_sizes returned

theorem pushObject_sizes (c : Cache) (s p : Nat) :
    (pushObject c s p).objSz = c.objSz ∧ (pushObject c s p).objsPerSlab = c.objsPerSlab := by
  unfold pushObject
  dsimp only
  split <;> exact ⟨rfl, rfl⟩

theorem cacheFree_sizes (fuel : Nat) (returned : cacheFree fuel c p = some c') :
    c'.objSz = c.objSz ∧ c'.objsPerSlab = c.objsPerSlab := by
  obtain ⟨s, -, rfl⟩ := Option.map_eq_some_iff.mp returned
  by_cases none : s = 0
  · rw [if_pos none]
    exact ⟨rfl, rfl⟩
  · rw [if_neg none]
    exact pushObject_sizes c s p

end Sizes

structure Layout where
  slabs : List Nat
  partials : List Nat
  free : Nat → List Nat

structure Rep (c : Cache) (l : Layout) : Prop where
  geometry : Geometry c.objSz c.objsPerSlab
  all : Linked 0 (nextAll c.memory) c.allSlabs l.slabs
  chain : Linked 0 (nextPartial c.memory) c.partialSlabs l.partials
  placed : ∀ s ∈ l.slabs, Placed s
  apart : ∀ s ∈ l.slabs, ∀ t ∈ l.slabs, s ≠ t → s + 32768 ≤ t ∨ t + 32768 ≤ s
  carved : ∀ s ∈ l.slabs, Carved c.memory c.objSz c.objsPerSlab s (l.free s)
  counted : ∀ s ∈ l.slabs, inUse c.memory s + (l.free s).length = c.objsPerSlab
  exact : ∀ s, s ∈ l.partials ↔ s ∈ l.slabs ∧ l.free s ≠ []

def Handed (objSz count : Nat) (l : Layout) (o : Nat) : Prop :=
  ∃ s ∈ l.slabs, o ∈ objects objSz count s ∧ o ∉ l.free s

def withFree (free : Nat → List Nat) (s : Nat) (nodes : List Nat) : Nat → List Nat :=
  fun t => if t = s then nodes else free t

@[simp] theorem withFree_same (free : Nat → List Nat) (s : Nat) (nodes : List Nat) :
    withFree free s nodes s = nodes := by
  simp [withFree]

theorem withFree_other (free : Nat → List Nat) (s t : Nat) (nodes : List Nat) (different : t ≠ s) :
    withFree free s nodes t = free t := by
  simp [withFree, different]

section Slabs
variable {c : Cache} {l : Layout}

theorem slab_word (rep : Rep c l) (s : Nat) (member : s ∈ l.slabs) : s < 2 ^ 64 := by
  have below := (rep.placed s member).below
  omega

theorem head_word (nodes : List Nat) (next : Nat → Nat) (head : Nat) (links : Linked 0 next head nodes)
    (words : ∀ s ∈ nodes, s < 2 ^ 64) : head < 2 ^ 64 := by
  rcases linked_head _ _ links with isNull | member
  · omega
  · exact words head member

theorem object_slab (rep : Rep c l) (s t o : Nat) (inSlabs : s ∈ l.slabs) (inSlabs' : t ∈ l.slabs)
    (member : o ∈ objects c.objSz c.objsPerSlab s) (low : t ≤ o) (high : o < t + 32768) : t = s := by
  by_contra different
  have bounds := object_bounds rep.geometry o member
  have room := rep.geometry.fits
  have size := rep.geometry.large
  have apart := rep.apart t inSlabs' s inSlabs different
  omega

theorem object_owner (rep : Rep c l) (s t o : Nat) (inSlabs : s ∈ l.slabs) (inSlabs' : t ∈ l.slabs)
    (member : o ∈ objects c.objSz c.objsPerSlab s) (member' : o ∈ objects c.objSz c.objsPerSlab t) :
    t = s := by
  have bounds := object_bounds rep.geometry o member'
  have room := rep.geometry.fits
  have size := rep.geometry.large
  exact object_slab rep s t o inSlabs inSlabs' member (by omega) (by omega)

theorem agree_other (rep : Rep c l) (m' : Memory) (s t : Nat) (inSlabs : s ∈ l.slabs)
    (inSlabs' : t ∈ l.slabs) (different : t ≠ s) (outside : AgreeOutside c.memory m' s 32768) :
    Agree c.memory m' t 32768 := by
  have apart := rep.apart t inSlabs' s inSlabs different
  intro byte low high
  apply outside
  omega

theorem header_other (rep : Rep c l) (m' : Memory) (s t : Nat) (inSlabs : s ∈ l.slabs)
    (inSlabs' : t ∈ l.slabs) (different : t ≠ s) (outside : AgreeOutside c.memory m' s 32768) :
    headerAt m' t = headerAt c.memory t := by
  apply headerAt_agree
  intro byte low high
  exact agree_other rep m' s t inSlabs inSlabs' different outside byte low (by omega)

/-- A call that changes one slab: what has to be shown about that slab and about
the partial chain. -/
theorem rep_local (rep : Rep c l) (m' : Memory) (s head : Nat) (nodes partials : List Nat)
    (inSlabs : s ∈ l.slabs) (outside : AgreeOutside c.memory m' s 32768)
    (sameNext : nextAll m' s = nextAll c.memory s)
    (carved : Carved m' c.objSz c.objsPerSlab s nodes)
    (counted : inUse m' s + nodes.length = c.objsPerSlab)
    (chain : Linked 0 (nextPartial m') head partials)
    (exact : ∀ t, t ∈ partials ↔ t ∈ l.slabs ∧ withFree l.free s nodes t ≠ []) :
    Rep { c with memory := m', partialSlabs := head } ⟨l.slabs, partials, withFree l.free s nodes⟩ := by
  -- regions are apart, so the other slabs read what they read before
  have headers : ∀ t ∈ l.slabs, t ≠ s → headerAt m' t = headerAt c.memory t :=
    fun t member different => header_other rep m' s t inSlabs member different outside
  refine ⟨rep.geometry, ?_, chain, rep.placed, rep.apart, ?_, ?_, exact⟩
  · apply linked_congr _ _ rep.all
    intro t member
    by_cases same : t = s
    · subst same
      exact sameNext
    · exact (headerAt_fields _ _ _ (headers t member same)).1
  · intro t member
    by_cases same : t = s
    · subst same
      simp only [withFree_same]
      exact carved
    · simp only [withFree_other _ _ _ _ same]
      exact carved_agree rep.geometry m' (rep.carved t member)
        (agree_other rep m' s t inSlabs member same outside)
  · intro t member
    by_cases same : t = s
    · subst same
      simp only [withFree_same]
      exact counted
    · simp only [withFree_other _ _ _ _ same]
      have sameUse := (headerAt_fields _ _ _ (headers t member same)).2.2.2.1
      exact (congrArg (· + (l.free t).length) sameUse).trans (rep.counted t member)

/-! `cache_alloc`. -/

theorem partials_head (rep : Rep c l) (nonempty : c.partialSlabs ≠ 0) :
    ∃ rest, l.partials = c.partialSlabs :: rest := by
  have chain := rep.chain
  have some : l.partials ≠ [] := fun empty => nonempty ((linked_null_iff _ _ chain).mpr empty)
  obtain ⟨s, rest, shape⟩ := List.exists_cons_of_ne_nil some
  rw [shape] at chain
  exact ⟨rest, by rw [shape, chain.1]⟩

theorem partials_tail (rep : Rep c l) (s : Nat) (rest : List Nat) (shape : l.partials = s :: rest) :
    s ∉ rest ∧ rest ⊆ l.slabs ∧ ∀ t, t ∈ rest ↔ t ∈ l.slabs ∧ l.free t ≠ [] ∧ t ≠ s := by
  have fresh : s ∉ rest := (List.nodup_cons.mp (shape ▸ linked_nodup _ _ rep.chain)).1
  have exact : ∀ t, t ∈ rest ↔ t ∈ l.slabs ∧ l.free t ≠ [] ∧ t ≠ s := by
    intro t
    have whole := rep.exact t
    rw [shape, List.mem_cons] at whole
    constructor
    · intro member
      obtain ⟨inside, some⟩ := whole.mp (Or.inr member)
      exact ⟨inside, some, fun same => fresh (same ▸ member)⟩
    · rintro ⟨inside, some, different⟩
      exact (whole.mpr ⟨inside, some⟩).resolve_left different
  exact ⟨fresh, fun t member => ((exact t).mp member).1, exact⟩

theorem chain_other (rep : Rep c l) (m' : Memory) (s head : Nat) (nodes : List Nat)
    (inSlabs : s ∈ l.slabs) (outside : AgreeOutside c.memory m' s 32768) (part : nodes ⊆ l.slabs)
    (fresh : s ∉ nodes) (chain : Linked 0 (nextPartial c.memory) head nodes) :
    Linked 0 (nextPartial m') head nodes := by
  apply linked_congr _ _ chain
  intro t member
  have different : t ≠ s := fun same => fresh (same ▸ member)
  have same := header_other rep m' s t inSlabs (part member) different outside
  exact (headerAt_fields _ _ _ same).2.1

/-- A slab gives an object away, and leaves the chain with its last one. -/
def Layout.give (l : Layout) (s : Nat) (rest others : List Nat) : Layout :=
  ⟨l.slabs, if others = [] then rest else s :: rest, withFree l.free s others⟩

theorem popObject_outcome (rep : Rep c l) (nonempty : c.partialSlabs ≠ 0) :
    ∃ s ∈ l.slabs, ∃ rest o others c', l.partials = s :: rest ∧ l.free s = o :: others ∧
      popObject c = some (c', o) ∧ Rep c' (l.give s rest others) := by
  obtain ⟨rest, partials⟩ := partials_head rep nonempty
  have chain := rep.chain
  generalize isHead : c.partialSlabs = s at partials chain
  rw [partials] at chain
  obtain ⟨inSlabs, notFull⟩ := (rep.exact s).mp (partials ▸ List.mem_cons_self)
  obtain ⟨o, others, nodes⟩ := List.exists_cons_of_ne_nil notFull
  have carved := rep.carved s inSlabs
  have counted := rep.counted s inSlabs
  rw [nodes] at carved counted
  have start : free c.memory s = o := carved.links.1
  have valid : o ≠ 0 := carved.links.2.1
  have changed := changed_pop rep.geometry o carved counted
  obtain ⟨fresh, part, exactRest⟩ := partials_tail rep s rest partials
  have tail := chain_other rep _ s _ rest inSlabs changed.outside part fresh chain.2.2
  unfold popObject
  simp only [isHead, start, if_neg valid]
  generalize setInUse (setFree c.memory s (next c.memory o)) s
    (inUse (setFree c.memory s (next c.memory o)) s + 1) = m at changed tail
  have head := changed.carved.links
  by_cases full : others = []
  · -- the last free object: the slab leaves the chain
    subst full
    have empty : free m s = 0 := head
    rw [if_pos empty]
    refine ⟨s, inSlabs, rest, o, [], _, partials, nodes, rfl, ?_⟩
    rw [Layout.give, if_pos rfl]
    apply rep_local rep m s _ [] rest inSlabs changed.outside changed.nextAll changed.carved changed.counted
    · rw [changed.nextPartial]
      exact tail
    · intro t
      rw [exactRest]
      by_cases same : t = s
      · simp [same]
      · simp [withFree_other _ _ _ _ same, same]
  · have some : free m s ≠ 0 := fun isNull => full ((linked_null_iff _ _ head).mp isNull)
    rw [if_neg some]
    refine ⟨s, inSlabs, rest, o, others, _, partials, nodes, rfl, ?_⟩
    rw [Layout.give, if_neg full]
    apply rep_local rep m s s others (s :: rest) inSlabs changed.outside changed.nextAll changed.carved
      changed.counted
    · refine ⟨rfl, chain.2.1, ?_⟩
      rw [changed.nextPartial]
      exact tail
    · intro t
      rw [List.mem_cons, exactRest]
      by_cases same : t = s
      · simp [same, inSlabs, full]
      · simp [withFree_other _ _ _ _ same, same]

def Layout.extend (l : Layout) (s : Nat) (nodes : List Nat) : Layout :=
  ⟨s :: l.slabs, [s], withFree l.free s nodes⟩

theorem region_fresh (s : Nat) (apart : ∀ t ∈ l.slabs, s + 32768 ≤ t ∨ t + 32768 ≤ s) : s ∉ l.slabs := by
  intro again
  have clash := apart s again
  omega

theorem apart_extend (rep : Rep c l) (s : Nat)
    (apart : ∀ t ∈ l.slabs, s + 32768 ≤ t ∨ t + 32768 ≤ s) :
    ∀ t ∈ s :: l.slabs, ∀ u ∈ s :: l.slabs, t ≠ u → t + 32768 ≤ u ∨ u + 32768 ≤ t := by
  intro t inLeft u inRight different
  rcases List.mem_cons.mp inLeft with rfl | old <;> rcases List.mem_cons.mp inRight with rfl | old'
  · exact absurd rfl different
  · exact apart u old'
  · exact (apart t old).symm
  · exact rep.apart t old u old' different

theorem exact_extend (rep : Rep c l) (empty : c.partialSlabs = 0) (s t : Nat) :
    t ∈ [s] ↔ t ∈ s :: l.slabs ∧
      withFree l.free s (objectsDown c.objSz s c.objsPerSlab) t ≠ [] := by
  have nothing := rep.exact t
  rw [(linked_null_iff _ _ rep.chain).mp empty] at nothing
  have some : objectsDown c.objSz s c.objsPerSlab ≠ [] := by
    have count := rep.geometry.nonempty
    apply List.ne_nil_of_length_pos
    simp only [objectsDown, List.length_map, List.length_reverse, List.length_range]
    omega
  by_cases same : t = s
  · simp [same, some]
  · simpa [withFree_other _ _ _ _ same, same] using nothing

theorem rep_extend {c' : Cache} (rep : Rep c l) (empty : c.partialSlabs = 0) (s : Nat)
    (placed : Placed s) (apart : ∀ t ∈ l.slabs, s + 32768 ≤ t ∨ t + 32768 ≤ s)
    (created : Created c c' s) : Rep c' (l.extend s (objectsDown c.objSz s c.objsPerSlab)) := by
  obtain ⟨carved, isNextAll, isNextPartial, isInUse, ⟨isAll, isPartial⟩, ⟨isSize, isCount⟩, outside⟩ := created
  have others : ∀ t ∈ l.slabs, Agree c.memory c'.memory t 32768 := by
    intro t member byte low high
    have away := apart t member
    apply outside
    omega
  have headers : ∀ t ∈ l.slabs, headerAt c'.memory t = headerAt c.memory t := fun t member =>
    headerAt_agree _ _ _ fun byte low high => others t member byte low (by omega)
  have different : ∀ t ∈ l.slabs, t ≠ s := fun t member same => region_fresh s apart (same ▸ member)
  refine ⟨?_, ?_, ?_, ?_, apart_extend rep s apart, ?_, ?_, exact_extend rep empty s⟩
  · rw [isSize, isCount]
    exact rep.geometry
  · rw [isAll]
    exact linked_push _ _ _ rep.all (Nat.ne_of_gt placed.valid) isNextAll fun t member =>
      (headerAt_fields _ _ _ (headers t member)).1
  · rw [isPartial]
    exact ⟨rfl, Nat.ne_of_gt placed.valid, isNextPartial.trans empty⟩
  · intro t member
    rcases List.mem_cons.mp member with rfl | old
    · exact placed
    · exact rep.placed t old
  · intro t member
    rw [isSize, isCount]
    rcases List.mem_cons.mp member with rfl | old
    · simp only [Layout.extend, withFree_same]
      exact carved
    · simp only [Layout.extend, withFree_other _ _ _ _ (different t old)]
      exact carved_agree rep.geometry _ (rep.carved t old) (others t old)
  · intro t member
    rw [isCount]
    rcases List.mem_cons.mp member with rfl | old
    · simp only [Layout.extend, withFree_same, isInUse]
      simp [objectsDown]
    · simp only [Layout.extend, withFree_other _ _ _ _ (different t old)]
      have sameUse := (headerAt_fields _ _ _ (headers t old)).2.2.2.1
      exact (congrArg (· + (l.free t).length) sameUse).trans (rep.counted t old)

theorem rep_newSlab (rep : Rep c l) (empty : c.partialSlabs = 0) (s : Nat) (placed : Placed s)
    (apart : ∀ t ∈ l.slabs, s + 32768 ≤ t ∨ t + 32768 ≤ s) :
    Rep (newSlab c (some s)).1 (l.extend s (objectsDown c.objSz s c.objsPerSlab)) := by
  have all := head_word _ _ _ rep.all (slab_word rep)
  obtain ⟨created, -⟩ := newSlab_created rep.geometry placed all (by rw [empty]; decide)
  exact rep_extend rep empty s placed apart created

end Slabs

/-! Which objects are handed out. -/

section Handed
variable {objSz count : Nat} {c : Cache} {l : Layout}

theorem handed_pop (rep : Rep c l) (s o : Nat) (rest others : List Nat) (inSlabs : s ∈ l.slabs)
    (nodes : l.free s = o :: others) :
    ¬ Handed c.objSz c.objsPerSlab l o ∧
    ∀ q, Handed c.objSz c.objsPerSlab (l.give s rest others) q ↔
      q = o ∨ Handed c.objSz c.objsPerSlab l q := by
  have carved := rep.carved s inSlabs
  rw [nodes] at carved
  have member := carved.objects o List.mem_cons_self
  have fresh := (List.nodup_cons.mp (linked_nodup _ _ carved.links)).1
  unfold Layout.give
  constructor
  · rintro ⟨t, inside, member', taken⟩
    rw [object_owner rep s t o inSlabs inside member member', nodes] at taken
    exact taken List.mem_cons_self
  · intro q
    constructor
    · rintro ⟨t, inside, member', taken⟩
      by_cases isPopped : q = o
      · exact Or.inl isPopped
      · refine Or.inr ⟨t, inside, member', ?_⟩
        by_cases same : t = s
        · subst same
          simp only [withFree_same] at taken
          rw [nodes, List.mem_cons, not_or]
          exact ⟨isPopped, taken⟩
        · simpa only [withFree_other _ _ _ _ same] using taken
    · rintro (rfl | ⟨t, inside, member', taken⟩)
      · exact ⟨s, inSlabs, member, by simpa only [withFree_same] using fresh⟩
      · refine ⟨t, inside, member', ?_⟩
        by_cases same : t = s
        · subst same
          rw [nodes, List.mem_cons, not_or] at taken
          simpa only [withFree_same] using taken.2
        · simpa only [withFree_other _ _ _ _ same] using taken

theorem handed_extend (s : Nat) (fresh : s ∉ l.slabs) (o : Nat) :
    Handed objSz count (l.extend s (objectsDown objSz s count)) o ↔ Handed objSz count l o := by
  have different : ∀ t ∈ l.slabs, t ≠ s := fun t member same => fresh (same ▸ member)
  constructor
  · rintro ⟨t, inside, member, taken⟩
    rcases List.mem_cons.mp inside with rfl | old
    · simp only [Layout.extend, withFree_same] at taken
      obtain ⟨i, below, rfl⟩ := (mem_objects o).mp member
      exact absurd ((mem_objectsDown count _).mpr ⟨i, below, rfl⟩) taken
    · simp only [Layout.extend, withFree_other _ _ _ _ (different t old)] at taken
      exact ⟨t, old, member, taken⟩
  · rintro ⟨t, inside, member, taken⟩
    refine ⟨t, List.mem_cons_of_mem _ inside, member, ?_⟩
    simpa only [Layout.extend, withFree_other _ _ _ _ (different t inside)] using taken

theorem fresh_placed (regions : List Nat) (s : Nat) (fresh : Fresh regions s) :
    Placed s ∧ ∀ t ∈ regions, s + 32768 ≤ t ∨ t + 32768 ≤ s := by
  obtain ⟨aligned, valid, below, apart⟩ := fresh
  rw [slabBytes_eq] at below
  exact ⟨⟨aligned, valid, below⟩, apart⟩

def Layout.pop (l : Layout) : Layout × Nat :=
  match l.partials with
  | [] => (l, 0)
  | s :: rest => (l.give s rest (l.free s).tail, (l.free s).headD 0)

theorem layout_pop (s o : Nat) (rest others : List Nat) (partials : l.partials = s :: rest)
    (nodes : l.free s = o :: others) : l.pop = (l.give s rest others, o) := by
  rw [Layout.pop, partials]
  simp only [nodes, List.tail_cons, List.headD_cons]

def Layout.alloc (objSz count : Nat) (mapped : Option Nat) (l : Layout) : Layout × Nat :=
  if l.partials = [] then
    match mapped with
    | none => (l, 0)
    | some s => (l.extend s (objectsDown objSz s count)).pop
  else l.pop

/-- What `cache_alloc` does: nothing when it would need a region and gets none,
otherwise it hands out an object that was not handed out. -/
theorem cacheAlloc_outcome (rep : Rep c l) (mapped : Option Nat)
    (success : ∀ s ∈ mapped, Fresh l.slabs s) :
    (cacheAlloc c mapped = some (c, 0) ∧ c.partialSlabs = 0 ∧ mapped = none) ∨
    ∃ o c' l', cacheAlloc c mapped = some (c', o) ∧ o ≠ 0 ∧ Rep c' l' ∧
      l'.slabs = (if c.partialSlabs = 0 then mapped.toList ++ l.slabs else l.slabs) ∧
      ¬ Handed c.objSz c.objsPerSlab l o ∧
      (∀ q, Handed c.objSz c.objsPerSlab l' q ↔ q = o ∨ Handed c.objSz c.objsPerSlab l q) ∧
      l.alloc c.objSz c.objsPerSlab mapped = (l', o) := by
  unfold cacheAlloc
  -- a new slab is made only where the partial chain is empty
  have chain := linked_null_iff _ _ rep.chain
  by_cases empty : c.partialSlabs = 0
  · rw [if_pos empty, if_pos empty]
    cases mapped with
    | none => exact Or.inl ⟨rfl, empty, rfl⟩
    | some s =>
        obtain ⟨placed, apart⟩ := fresh_placed _ s (success s rfl)
        have valid : s ≠ 0 := Nat.ne_of_gt placed.valid
        have fresh := region_fresh s apart
        have rep' := rep_newSlab rep empty s placed apart
        have head : (newSlab c (some s)).1.partialSlabs = s := rfl
        have result : (newSlab c (some s)).2 = s := rfl
        obtain ⟨isSize, isCount⟩ := newSlab_sizes c (some s)
        obtain ⟨t, inSlabs, rest, o, others, c', partials, nodes, popped, rep''⟩ :=
          popObject_outcome rep' (by rwa [head])
        obtain ⟨free, taken⟩ := handed_pop rep' t o rest others inSlabs nodes
        rw [isSize, isCount] at free taken
        rw [handed_extend s fresh] at free
        refine Or.inr ⟨o, c', _, ?_, ?_, rep'', rfl, free,
          fun q => by rw [taken, handed_extend s fresh], ?_⟩
        · simp only [result, if_neg valid]
          exact popped
        · have carved := rep'.carved t inSlabs
          rw [nodes] at carved
          exact carved.links.2.1
        · unfold Layout.alloc
          rw [if_pos (chain.mp empty)]
          exact layout_pop t o rest others partials nodes
  · rw [if_neg empty, if_neg empty]
    obtain ⟨s, inSlabs, rest, o, others, c', partials, nodes, popped, rep'⟩ :=
      popObject_outcome rep empty
    obtain ⟨free, taken⟩ := handed_pop rep s o rest others inSlabs nodes
    have carved := rep.carved s inSlabs
    rw [nodes] at carved
    refine Or.inr ⟨o, c', _, popped, carved.links.2.1, rep', rfl, free, taken, ?_⟩
    unfold Layout.alloc
    rw [if_neg (fun none => empty (chain.mpr none))]
    exact layout_pop s o rest others partials nodes

end Handed

/-! `cache_free`. -/

section Release
variable {c : Cache} {l : Layout}

theorem owner_test (rep : Rep c l) (s p : Nat) (inSlabs : s ∈ l.slabs) :
    (base c.memory s ≤ p ∧ p < fin c.memory s) ↔
      s + 48 ≤ p ∧ p < s + 48 + c.objsPerSlab * c.objSz := by
  rw [(rep.carved s inSlabs).base, (rep.carved s inSlabs).fin]

theorem findSlab_returns (rep : Rep c l) (fuel p : Nat) (enough : l.slabs.length < fuel) :
    ∃ s, findSlab fuel c p = some s :=
  ⟨_, scan_returns fuel c.allSlabs l.slabs rep.all enough⟩

theorem findSlab_owner (rep : Rep c l) (fuel s p found : Nat) (inSlabs : s ∈ l.slabs)
    (member : p ∈ objects c.objSz c.objsPerSlab s) (returned : findSlab fuel c p = some found) :
    found = s := by
  have bounds := object_bounds rep.geometry p member
  have room := rep.geometry.fits
  have size := rep.geometry.large
  rw [scan_sound fuel c.allSlabs found l.slabs rep.all returned]
  cases search : l.slabs.find? (fun t => decide (base c.memory t ≤ p) && decide (p < fin c.memory t)) with
  | none =>
      have missed := List.find?_eq_none.mp search s inSlabs
      have hit := (owner_test rep s p inSlabs).mpr (by omega)
      simp [hit] at missed
  | some t =>
      have inside := List.mem_of_find?_eq_some search
      have hit := List.find?_some search
      simp only [Bool.and_eq_true, decide_eq_true_eq] at hit
      -- any other slab that passes the test would contain the object too
      rw [owner_test rep t p inside] at hit
      exact object_slab rep s t p inSlabs inside member (by omega) (by omega)

theorem findSlab_foreign (rep : Rep c l) (fuel p found : Nat) (foreign : Foreign c l.slabs p)
    (returned : findSlab fuel c p = some found) : found = 0 := by
  rw [scan_sound fuel c.allSlabs found l.slabs rep.all returned]
  have missed : l.slabs.find? (fun t => decide (base c.memory t ≤ p) && decide (p < fin c.memory t)) = none := by
    apply List.find?_eq_none.mpr
    intro t member
    simpa using foreign t member
  rw [missed]
  rfl

def Layout.push (l : Layout) (s p : Nat) : Layout :=
  ⟨l.slabs, if l.free s = [] then s :: l.partials else l.partials, withFree l.free s (p :: l.free s)⟩

theorem rep_pushObject (rep : Rep c l) (s p : Nat) (inSlabs : s ∈ l.slabs)
    (member : p ∈ objects c.objSz c.objsPerSlab s) (taken : p ∉ l.free s) :
    Rep (pushObject c s p) (l.push s p) := by
  have carved := rep.carved s inSlabs
  have changed := changed_push rep.geometry (rep.placed s inSlabs) carved (rep.counted s inSlabs) p
    member taken
  have part : l.partials ⊆ l.slabs := fun t listed => ((rep.exact t).mp listed).1
  have nodes := carved.links
  unfold pushObject
  simp only
  generalize setInUse (setFree (setNext c.memory p (free c.memory s)) s p) s
    (inUse (setFree (setNext c.memory p (free c.memory s)) s p) s + (2 ^ 32 - 1)) = m at changed
  by_cases wasFull : free c.memory s = 0
  · -- a full slab comes back to the front of the chain
    rw [if_pos wasFull]
    have empty : l.free s = [] := (linked_null_iff _ _ nodes).mp wasFull
    have fresh : s ∉ l.partials := fun listed => ((rep.exact s).mp listed).2 empty
    have bounded := head_word _ _ _ rep.chain fun t listed => slab_word rep t (part listed)
    obtain ⟨isNextAll, isNextPartial, -, isInUse, -⟩ :=
      headerAt_fields _ _ _ (headerAt_setNextPartial m s c.partialSlabs bounded)
    have outside : AgreeOutside c.memory (setNextPartial m s c.partialSlabs) s 32768 :=
      agreeOutside_trans _ _ _ _ _ changed.outside
        (agreeOutside_store _ 8 (s + 8) _ s 32768 (by omega) (by omega))
    rw [Layout.push, if_pos empty]
    apply rep_local rep _ s s _ _ inSlabs outside (isNextAll.trans changed.nextAll)
      (carved_setNextPartial rep.geometry changed.carved _ bounded)
      ((congrArg (· + (p :: l.free s).length) isInUse).trans changed.counted)
    · refine ⟨rfl, Nat.ne_of_gt (rep.placed s inSlabs).valid, ?_⟩
      rw [isNextPartial]
      exact chain_other rep _ s _ _ inSlabs outside part fresh rep.chain
    · intro t
      rw [List.mem_cons, rep.exact]
      by_cases same : t = s
      · simp [same, inSlabs]
      · simp [withFree_other _ _ _ _ same, same]
  · rw [if_neg wasFull]
    have some : l.free s ≠ [] := fun empty => wasFull ((linked_null_iff _ _ nodes).mpr empty)
    rw [Layout.push, if_neg some]
    apply rep_local rep m s c.partialSlabs _ _ inSlabs changed.outside changed.nextAll changed.carved
      changed.counted
    · apply linked_congr _ _ rep.chain
      intro t listed
      by_cases same : t = s
      · rw [same]
        exact changed.nextPartial
      · have headers := header_other rep m s t inSlabs (part listed) same changed.outside
        exact (headerAt_fields _ _ _ headers).2.1
    · intro t
      rw [rep.exact]
      by_cases same : t = s
      · simp [same, some]
      · simp [withFree_other _ _ _ _ same]

theorem handed_push (rep : Rep c l) (s p : Nat) (inSlabs : s ∈ l.slabs)
    (member : p ∈ objects c.objSz c.objsPerSlab s) (q : Nat) :
    Handed c.objSz c.objsPerSlab (l.push s p) q ↔ Handed c.objSz c.objsPerSlab l q ∧ q ≠ p := by
  unfold Layout.push
  constructor
  · rintro ⟨t, inside, member', taken⟩
    by_cases same : t = s
    · subst same
      simp only [withFree_same, List.mem_cons, not_or] at taken
      exact ⟨⟨t, inside, member', taken.2⟩, taken.1⟩
    · simp only [withFree_other _ _ _ _ same] at taken
      refine ⟨⟨t, inside, member', taken⟩, ?_⟩
      rintro rfl
      exact same (object_owner rep s t q inSlabs inside member member')
  · rintro ⟨⟨t, inside, member', taken⟩, different⟩
    refine ⟨t, inside, member', ?_⟩
    by_cases same : t = s
    · subst same
      simpa only [withFree_same, List.mem_cons, not_or] using ⟨different, taken⟩
    · simpa only [withFree_other _ _ _ _ same] using taken

theorem cacheFree_outcome (rep : Rep c l) (fuel p : Nat) (c' : Cache)
    (taken : Handed c.objSz c.objsPerSlab l p) (returned : cacheFree fuel c p = some c') :
    ∃ s ∈ l.slabs, p ∈ objects c.objSz c.objsPerSlab s ∧ c' = pushObject c s p ∧
      Rep c' (l.push s p) ∧
      ∀ q, Handed c.objSz c.objsPerSlab (l.push s p) q ↔ Handed c.objSz c.objsPerSlab l q ∧ q ≠ p := by
  obtain ⟨found, search, result⟩ := Option.map_eq_some_iff.mp returned
  obtain ⟨s, inSlabs, member, notFree⟩ := taken
  obtain rfl := findSlab_owner rep fuel s p found inSlabs member search
  rw [if_neg (Nat.ne_of_gt (rep.placed found inSlabs).valid)] at result
  have rep' := rep_pushObject rep found p inSlabs member notFree
  rw [result] at rep'
  exact ⟨found, inSlabs, member, result.symm, rep', handed_push rep found p inSlabs member⟩

theorem cacheFree_foreign (rep : Rep c l) (fuel p : Nat) (c' : Cache) (foreign : Foreign c l.slabs p)
    (returned : cacheFree fuel c p = some c') : c' = c := by
  obtain ⟨found, search, result⟩ := Option.map_eq_some_iff.mp returned
  rw [if_pos (findSlab_foreign rep fuel p found foreign search)] at result
  exact result.symm

theorem cacheFree_returns (rep : Rep c l) (fuel p : Nat) (enough : l.slabs.length < fuel) :
    ∃ c', cacheFree fuel c p = some c' := by
  obtain ⟨s, search⟩ := findSlab_returns rep fuel p enough
  exact ⟨_, by rw [cacheFree, search]; rfl⟩

theorem rep_memory (rep : Rep c l) (m' : Memory)
    (headers : ∀ s ∈ l.slabs, headerAt m' s = headerAt c.memory s)
    (links : ∀ s ∈ l.slabs, ∀ o ∈ l.free s, next m' o = next c.memory o) :
    Rep { c with memory := m' } l := by
  have fields := fun s member => headerAt_fields _ _ _ (headers s member)
  refine ⟨rep.geometry, ?_, ?_, rep.placed, rep.apart, ?_, ?_, rep.exact⟩
  · exact linked_congr _ _ rep.all fun s member => (fields s member).1
  · exact linked_congr _ _ rep.chain fun s listed => (fields s ((rep.exact s).mp listed).1).2.1
  · intro s member
    obtain ⟨-, -, sameFree, -, sameCapacity, sameBase, sameFin⟩ := fields s member
    exact carved_congr m' (rep.carved s member) ⟨sameBase, sameFin, sameCapacity, sameFree⟩
      (links s member)
  · intro s member
    exact (congrArg (· + (l.free s).length) (fields s member).2.2.2.1).trans (rep.counted s member)

theorem rep_write (rep : Rep c l) (p address : Nat) (value : UInt8)
    (taken : Handed c.objSz c.objsPerSlab l p) (inside : p ≤ address ∧ address < p + c.objSz) :
    Rep { c with memory := poke c.memory address value } l := by
  obtain ⟨s, inSlabs, member, notFree⟩ := taken
  have bounds := object_bounds rep.geometry p member
  have room := rep.geometry.fits
  have size := rep.geometry.large
  apply rep_memory rep
  · intro t inSlabs'
    apply headerAt_agree
    intro byte low high
    have different : byte ≠ address := by
      rintro rfl
      by_cases isOwner : t = s
      · omega
      · have apart := rep.apart t inSlabs' s inSlabs isOwner
        omega
    simp [poke, different]
  · intro t inSlabs' o listed
    have member' := (rep.carved t inSlabs').objects o listed
    have bounds' := object_bounds rep.geometry o member'
    apply load_poke
    by_cases isOwner : t = s
    · subst isOwner
      have different : o ≠ p := fun same => notFree (same ▸ listed)
      have apart := objects_apart o p member' member different
      omega
    · have apart := rep.apart t inSlabs' s inSlabs isOwner
      omega

end Release

end LinuxMemory.Slab
