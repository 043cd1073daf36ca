import LinuxMemory.SlabRuns

/-!
The object sizes that the slab cache is safe for. A size near `2 ^ 64` is
rounded to 0, which `cache_init` divides by; a size above the room of one slab
gives slabs without an object, and `cache_alloc` reads through the `NULL` that
heads their free list.
-/

namespace LinuxMemory.Slab

open ByteMemory Transition

def storedSize (objSz : Nat) : Nat := Word.roundUp align (if objSz < 8 then 8 else objSz)

theorem storedSize_eq (objSz : Nat) :
    storedSize objSz = Word.add (if objSz < 8 then 8 else objSz) 15 / 16 * 16 :=
  Word.roundUp_eq 4 _ (by decide)

theorem storedSize_exact (objSz : Nat) (room : objSz ≤ 2 ^ 64 - 16) :
    storedSize objSz = (max objSz 8 + 15) / 16 * 16 := by
  have clamped : (if objSz < 8 then 8 else objSz) = max objSz 8 := by
    split <;> omega
  rw [storedSize_eq, clamped, Word.add_exact _ _ (by omega)]

theorem storedSize_wrapped (objSz : Nat) (large : 2 ^ 64 - 16 < objSz) (size : objSz < 2 ^ 64) :
    storedSize objSz = 0 := by
  rw [storedSize_eq, if_neg (by omega)]
  unfold Word.add
  omega

theorem cacheInit_eq (memory : Memory) (objSz : Nat) : cacheInit memory objSz =
    if storedSize objSz = 0 then none
    else some ⟨memory, 0, 0, storedSize objSz, 32720 / storedSize objSz⟩ := by
  have room : slabBytes - header = 32720 := by decide
  simp only [cacheInit, storedSize, room]
  rfl

def Begun (objSz : Nat) (c : Client) : Prop :=
  c.live = [] ∧ c.regions = [] ∧ ∃ memory, cacheInit memory objSz = some c.cache

def anySizeSystem (objSz : Nat) : System Client Event := ⟨Begun objSz, Step⟩

/-- `cache_init` divides by a non-zero size, and in every run `cache_alloc` ends,
with `NULL` or with an object of the size asked for inside a region that was
mapped before or by this call. -/
structure SizeSafe (objSz : Nat) : Prop where
  divides : ∀ memory, (cacheInit memory objSz).isSome
  allocates : ∀ c, Reachable (anySizeSystem objSz) c →
    ∀ mapped : Option Nat, (∀ s ∈ mapped, Fresh c.regions s) →
      ∃ cache p, cacheAlloc c.cache mapped = some (cache, p) ∧
        (p = 0 ∨ ∃ s ∈ if c.cache.partialSlabs = 0 then mapped.toList ++ c.regions else c.regions,
          s ≤ p ∧ p + objSz ≤ s + slabBytes)

/-! The stored sizes never change. -/

section Sizes
variable {c : Cache}

theorem step_sizes (before after : Client) (event : Event) (next : Step before event after) :
    after.cache.objSz = before.cache.objSz ∧ after.cache.objsPerSlab = before.cache.objsPerSlab := by
  cases next with
  | alloc _ returned => exact cacheAlloc_sizes _ returned
  | free _ returned => exact cacheFree_sizes _ returned
  | write _ _ => exact ⟨rfl, rfl⟩

theorem cacheInit_sizes (memory : Memory) (objSz : Nat) (initialized : cacheInit memory objSz = some c) :
    c.objSz = storedSize objSz ∧ c.objsPerSlab = 32720 / storedSize objSz := by
  rw [cacheInit_eq] at initialized
  by_cases zero : storedSize objSz = 0
  · rw [if_pos zero] at initialized
    cases initialized
  · rw [if_neg zero] at initialized
    rw [← Option.some.inj initialized]
    exact ⟨rfl, rfl⟩

end Sizes

theorem run_sizes (objSz : Nat) (c : Client) (run : Reachable (anySizeSystem objSz) c) :
    c.cache.objSz = storedSize objSz ∧ c.cache.objsPerSlab = 32720 / storedSize objSz := by
  refine reachable_invariant (anySizeSystem objSz)
    (fun c => c.cache.objSz = storedSize objSz ∧ c.cache.objsPerSlab = 32720 / storedSize objSz)
    ?_ ?_ c run
  · rintro first ⟨-, -, memory, initialized⟩
    exact cacheInit_sizes memory objSz initialized
  · rintro before event after ⟨size, count⟩ next
    have kept := step_sizes before after event next
    exact ⟨kept.1.trans size, kept.2.trans count⟩

theorem fitting_run (objSz : Nat) (fits : objSz ≤ 32720) (c : Client)
    (run : Reachable (anySizeSystem objSz) c) : Run objSz c := by
  have exact := storedSize_exact objSz (by omega)
  induction run with
  | start initial =>
      have count := (run_sizes objSz _ (.start initial)).2
      have nonempty : 1 ≤ 32720 / storedSize objSz := by
        rw [exact, Nat.le_div_iff_mul_le (by omega)]
        omega
      exact .start ⟨by omega, initial.1, initial.2.1, count ▸ nonempty, initial.2.2⟩
  | step _ next ih => exact .step ih next

theorem fitting_safe (objSz : Nat) (fits : objSz ≤ 32720) : SizeSafe objSz := by
  have exact := storedSize_exact objSz (by omega)
  constructor
  · intro memory
    rw [cacheInit_eq, if_neg (by omega)]
    rfl
  · intro c run mapped success
    have usual := fitting_run objSz fits c run
    obtain ⟨l, related⟩ := run_related objSz c usual
    rw [related.regions] at success
    rcases cacheAlloc_outcome related.rep mapped success with
      ⟨refused, -, -⟩ | ⟨p, cache, l', granted, valid, -⟩
    · exact ⟨c.cache, 0, refused, Or.inl rfl⟩
    · refine ⟨cache, p, granted, Or.inr ?_⟩
      rw [← related.regions] at success
      have step := Reachable.step run (.alloc success granted)
      obtain ⟨l', related'⟩ := run_related objSz _ (fitting_run objSz fits _ step)
      have invariant := related_invariant related'
      have held : p ∈ (if p = 0 then c.live else p :: c.live) := by simp [valid]
      obtain ⟨s, inside, member, -⟩ := invariant.owned p held
      have bounds := (invariant.slabs s inside).inside p member
      have size := (run_sizes objSz _ step).1
      have larger : objSz ≤ cache.objSz := by
        rw [show cache.objSz = storedSize objSz from size, exact]
        omega
      exact ⟨s, inside, Nat.le_trans (Nat.le_add_right _ _) bounds.1,
        Nat.le_trans (Nat.add_le_add_left larger p) bounds.2.1⟩

/-- A new slab without room for an object: `cache_alloc` reads through `NULL`. -/
theorem oversized_alloc (c : Cache) (s : Nat) (empty : c.partialSlabs = 0)
    (none : c.objsPerSlab = 0) (valid : s ≠ 0) : cacheAlloc c (some s) = .none := by
  have memory : (newSlab c (some s)).1.memory = setNextPartial (setNextAll
      (carve s c.objSz c.objsPerSlab 0 (initHeader c s)) s c.allSlabs) s c.partialSlabs := rfl
  have unlinked : free (newSlab c (some s)).1.memory s = 0 := by
    rw [memory, none]
    -- no round of the loop writes the head, which was cleared before it
    have kept := field_apart (setNextAll (initHeader c s) s c.allSlabs) s c.partialSlabs 8 16 8 8
      (by decide)
    have kept' := after_first (initHeader c s) s c.allSlabs 8 16 (by decide)
    have cleared : free (initHeader c s) s = 0 := word_same _ 0 (s + 16) (by decide)
    exact kept.trans (kept'.trans cleared)
  have head : (newSlab c (some s)).1.partialSlabs = s := rfl
  have result : (newSlab c (some s)).2 = s := rfl
  unfold cacheAlloc
  rw [if_pos empty]
  generalize newSlab c (some s) = created at unlinked head result
  simp only [result, valid, ↓reduceIte, popObject, head, unlinked]

theorem oversized_unsafe (objSz : Nat) (size : objSz < 2 ^ 64) (large : 32720 < objSz) :
    ¬ SizeSafe objSz := by
  intro safe
  by_cases wraps : 2 ^ 64 - 16 < objSz
  · have divides := safe.divides (fun _ => 0)
    rw [cacheInit_eq, if_pos (storedSize_wrapped objSz wraps size)] at divides
    cases divides
  · have exact := storedSize_exact objSz (by omega)
    have positive : storedSize objSz ≠ 0 := by omega
    have none : 32720 / storedSize objSz = 0 := Nat.div_eq_of_lt (by omega)
    have begun : Begun objSz ⟨⟨fun _ => 0, 0, 0, storedSize objSz, 32720 / storedSize objSz⟩, [], []⟩ := by
      refine ⟨rfl, rfl, fun _ => 0, ?_⟩
      rw [cacheInit_eq, if_neg positive]
    obtain ⟨cache, p, returned, -⟩ := safe.allocates _ (.start begun) (some 4096) first_fresh
    rw [oversized_alloc _ 4096 rfl none (by decide)] at returned
    cases returned

theorem size_safe_iff (objSz : Nat) (size : objSz < 2 ^ 64) : SizeSafe objSz ↔ objSz ≤ 32720 := by
  constructor
  · intro safe
    by_contra large
    exact oversized_unsafe objSz size (Nat.lt_of_not_le large) safe
  · exact fitting_safe objSz

theorem size_safe_whole : SizeSafe 32720 := (size_safe_iff 32720 (by decide)).mpr (Nat.le_refl _)

/-- One byte more: the first allocation reads through `NULL`. -/
theorem size_unsafe_above : ¬ SizeSafe 32721 := oversized_unsafe 32721 (by decide) (by decide)

end LinuxMemory.Slab
