import LinuxMemory.SlabFrame
import Mathlib.Data.Nat.Choose.Basic

/-!
`main` of `03_slab.c`, for any number of objects of any size whose first field is an
`int` (there 10000 of 64 bytes): it allocates them, numbers them, adds the numbers up and
frees the objects. Where `mmap` fails it stores through `NULL`.
-/

namespace LinuxMemory.Slab

open ByteMemory LinkedList Transition

/-- `p[i] = cache_alloc(&cc)` for the remaining rounds, with the pointers so far. What
`mmap` returns may depend on the regions that it has returned. -/
def allocAll (mmap : List Nat → Option Nat) : Nat → Cache → List Nat → List Nat →
    Option (Cache × List Nat × List Nat)
  | 0, c, regions, pointers => some (c, regions, pointers)
  | rounds + 1, c, regions, pointers => do
      let (next, p) ← cacheAlloc c (mmap regions)
      let grown := if c.partialSlabs = 0 then (mmap regions).toList ++ regions else regions
      allocAll mmap rounds next grown (pointers ++ [p])

def numberAll : Nat → List Nat → Memory → Option Memory
  | _, [], memory => some memory
  | i, p :: rest, memory => if p = 0 then none else numberAll (i + 1) rest (store memory 4 p i)

/-- A result of `int` arithmetic, `none` where it overflows. -/
def checkedInt (v : Int) : Option Int := if -2 ^ 31 ≤ v ∧ v < 2 ^ 31 then some v else none

def sumAll (memory : Memory) : Int → List Nat → Option Int
  | sum, [] => some sum
  | sum, p :: rest =>
      if p = 0 then none
      else do
        let sum ← checkedInt (sum + Word.toInt (load memory 4 p))
        sumAll memory sum rest

/-- `mmap` fails at one of the rounds. -/
def Refused (mmap : List Nat → Option Nat) (rounds : Nat) (c : Cache) (regions pointers : List Nat) :
    Prop :=
  ∃ k < rounds, ∃ later grown handed, allocAll mmap k c regions pointers = some (later, grown, handed) ∧
    later.partialSlabs = 0 ∧ mmap grown = none

def freeAll (fuel : Nat) : List Nat → Cache → Option Cache
  | [], c => some c
  | p :: rest, c => cacheFree fuel c p >>= freeAll fuel rest

/-- What `main` prints of the cache and the sums, and the cache and its regions at the end. -/
structure Report where
  slabKiB : Nat
  objSz : Nat
  objsPerSlab : Nat
  sum : Int
  expected : Int
  cache : Cache
  regions : List Nat

/-- `size` is `sizeof(Obj)`, `n` is `N`. -/
def main (memory : Memory) (mmap : List Nat → Option Nat) (fuel size n : Nat) : Option Report := do
  let cc ← cacheInit memory size
  let (c, regions, pointers) ← allocAll mmap n cc [] []
  let numbered ← numberAll 0 pointers c.memory
  let sum ← sumAll numbered 0 pointers
  let last ← freeAll fuel pointers { c with memory := numbered }
  let product ← checkedInt (n * (n - 1))
  return ⟨slabBytes >>> 10, cc.objSz, cc.objsPerSlab, sum, product.tdiv 2, last, regions⟩

section Loops
variable {mmap : List Nat → Option Nat} {size : Nat} {c : Cache} {live regions pointers : List Nat}

theorem cacheAlloc_refused (empty : c.partialSlabs = 0) : cacheAlloc c none = some (c, 0) := by
  rw [cacheAlloc, if_pos empty]
  rfl

theorem run_alloc (run : Run size ⟨c, live, regions⟩)
    (answers : ∀ regions s, mmap regions = some s → Fresh regions s) :
    ∃ next p, cacheAlloc c (mmap regions) = some (next, p) ∧
      (p = 0 ↔ c.partialSlabs = 0 ∧ mmap regions = none) ∧
      Run size ⟨next, if p = 0 then live else p :: live,
        if c.partialSlabs = 0 then (mmap regions).toList ++ regions else regions⟩ := by
  obtain ⟨l, related⟩ := run_related size _ run
  have success : ∀ s ∈ mmap regions, Fresh regions s := fun s answered => answers regions s answered
  have slabs : regions = l.slabs := related.regions
  rcases cacheAlloc_outcome related.rep (mmap regions) (slabs ▸ success) with
    ⟨refused, empty, failed⟩ | ⟨p, next, l', granted, valid, -⟩
  · exact ⟨c, 0, refused, ⟨fun _ => ⟨empty, failed⟩, fun _ => rfl⟩, .step run (.alloc success refused)⟩
  · refine ⟨next, p, granted, ⟨fun null => absurd null valid, ?_⟩, .step run (.alloc success granted)⟩
    rintro ⟨empty, failed⟩
    rw [failed, cacheAlloc_refused empty] at granted
    exact (Prod.mk.inj (Option.some.inj granted)).2.symm

theorem refused_succ {rounds p : Nat} {next : Cache} {grown : List Nat}
    (granted : cacheAlloc c (mmap regions) = some (next, p))
    (grows : grown = if c.partialSlabs = 0 then (mmap regions).toList ++ regions else regions) :
    Refused mmap (rounds + 1) c regions pointers ↔
      (c.partialSlabs = 0 ∧ mmap regions = none) ∨ Refused mmap rounds next grown (pointers ++ [p]) := by
  have unrolled (k : Nat) : allocAll mmap (k + 1) c regions pointers =
      allocAll mmap k next grown (pointers ++ [p]) := by
    simp only [allocAll, granted, grows, bind, Option.bind]
  constructor
  · rintro ⟨k, below, later, grown', handed, allocated, failed⟩
    cases k with
    | zero =>
        cases allocated
        exact .inl failed
    | succ k =>
        rw [unrolled] at allocated
        exact .inr ⟨k, Nat.lt_of_succ_lt_succ below, later, grown', handed, allocated, failed⟩
  · rintro (here | ⟨k, below, later, grown', handed, allocated, failed⟩)
    · exact ⟨0, Nat.zero_lt_succ _, c, regions, pointers, rfl, here⟩
    · exact ⟨k + 1, Nat.succ_lt_succ below, later, grown', handed, (unrolled k).trans allocated, failed⟩

theorem allocAll_run (rounds : Nat) (run : Run size ⟨c, live, regions⟩)
    (held : 0 ∉ pointers → live = pointers.reverse)
    (answers : ∀ regions s, mmap regions = some s → Fresh regions s) :
    ∃ next grown new live', allocAll mmap rounds c regions pointers = some (next, grown, pointers ++ new) ∧
      new.length = rounds ∧ grown.length ≤ regions.length + rounds ∧ Run size ⟨next, live', grown⟩ ∧
      (0 ∉ pointers ++ new → live' = (pointers ++ new).reverse) ∧
      (0 ∈ new ↔ Refused mmap rounds c regions pointers) := by
  induction rounds generalizing c live regions pointers with
  | zero =>
      refine ⟨c, regions, [], live, ?_, rfl, Nat.le_refl _, run, ?_, ?_⟩
      · rw [allocAll, List.append_nil]
      · rwa [List.append_nil]
      · constructor
        · exact fun member => absurd member List.not_mem_nil
        · rintro ⟨k, below, -⟩
          exact absurd below (Nat.not_lt_zero k)
  | succ rounds ih =>
      obtain ⟨next, p, granted, failed, run'⟩ := run_alloc run answers
      have held' : 0 ∉ pointers ++ [p] → (if p = 0 then live else p :: live) = (pointers ++ [p]).reverse := by
        intro valid
        rw [List.mem_append, not_or, List.mem_singleton] at valid
        rw [if_neg (Ne.symm valid.2), held valid.1, List.reverse_append]
        rfl
      obtain ⟨last, grown, new, live', rest, length, bound, run'', all, nulls⟩ := ih run' held'
      refine ⟨last, grown, p :: new, live', ?_, ?_, ?_, run'', ?_, ?_⟩
      · simp only [allocAll, granted, bind, Option.bind]
        rw [rest, List.append_assoc]
        rfl
      · rw [List.length_cons, length]
      · have one : (if c.partialSlabs = 0 then (mmap regions).toList ++ regions else regions).length ≤
            regions.length + 1 := by
          cases mmap regions <;> split <;> simp
        omega
      · rwa [List.append_assoc] at all
      · rw [refused_succ granted rfl, List.mem_cons, nulls, ← failed, eq_comm]

theorem store_succ (memory : Memory) (width address value : Nat) :
    store memory (width + 1) address value =
      poke (store memory width address value) (address + width) (UInt8.ofNat (value / 256 ^ width)) := by
  funext byte
  by_cases top : byte = address + width
  · subst top
    simp [store, poke]
  · have same : (address ≤ byte ∧ byte < address + (width + 1)) ↔
        (address ≤ byte ∧ byte < address + width) := by
      omega
    simp [store, poke, top, same]

theorem run_store (run : Run size ⟨c, live, regions⟩) (p value width : Nat) (held : p ∈ live)
    (inside : width ≤ c.objSz) :
    Run size ⟨{ c with memory := store c.memory width p value }, live, regions⟩ := by
  induction width with
  | zero =>
      have same : store c.memory 0 p value = c.memory := by
        funext byte
        exact store_outside _ _ _ _ _ (by omega)
      rwa [same]
  | succ width ih =>
      rw [store_succ]
      exact .step (ih (Nat.le_of_succ_le inside))
        (@Step.write ⟨{ c with memory := store c.memory width p value }, live, regions⟩ p (p + width) _ held
          ⟨Nat.le_add_right _ _, Nat.add_lt_add_left inside p⟩)

theorem run_apart (run : Run size ⟨c, live, regions⟩) (p q : Nat) (held : p ∈ live) (held' : q ∈ live)
    (different : p ≠ q) : 4 ≤ c.objSz ∧ Apart 4 4 p q := by
  obtain ⟨l, related⟩ := run_related size _ run
  have large := related.rep.geometry.large
  have apart := objects_disjoint related.rep p q ((related.live p).mp held)
    ((related.live q).mp held') different
  unfold Ownership.Separate at apart
  unfold Apart
  dsimp only at large apart
  omega

theorem numberAll_run (i : Nat) (run : Run size ⟨c, live, regions⟩) (distinct : pointers.Nodup)
    (held : ∀ p ∈ pointers, p ∈ live) (valid : 0 ∉ pointers) (small : i + pointers.length ≤ 2 ^ 31) :
    ∃ numbered, numberAll i pointers c.memory = some numbered ∧
      Run size ⟨{ c with memory := numbered }, live, regions⟩ ∧
      (∀ p ∈ live, p ∉ pointers → load numbered 4 p = load c.memory 4 p) ∧
      ∀ k p, pointers[k]? = some p → load numbered 4 p = i + k := by
  induction pointers generalizing i c with
  | nil => exact ⟨c.memory, rfl, run, fun _ _ _ => rfl, fun k p found => by simp at found⟩
  | cons p rest ih =>
      obtain ⟨new, distinct⟩ := List.nodup_cons.mp distinct
      rw [List.forall_mem_cons] at held
      rw [List.mem_cons, not_or] at valid
      rw [List.length_cons] at small
      have wide (q : Nat) (member : q ∈ live) (different : p ≠ q) :=
        run_apart run q p member held.1 different.symm
      have stored : Run size ⟨{ c with memory := store c.memory 4 p i }, live, regions⟩ := by
        obtain ⟨l, related⟩ := run_related size _ run
        exact run_store run p i 4 held.1 (Nat.le_trans (by decide) related.rep.geometry.large)
      obtain ⟨numbered, later, run', others, each⟩ :=
        ih (i + 1) stored distinct held.2 valid.2 (by omega)
      refine ⟨numbered, ?_, run', ?_, ?_⟩
      · rw [numberAll, if_neg (Ne.symm valid.1)]
        exact later
      · intro q member outside
        rw [List.mem_cons, not_or] at outside
        exact (others q member outside.2).trans
          (load_store_apart _ _ _ _ _ _ (wide q member (Ne.symm outside.1)).2)
      · intro k q found
        cases k with
        | zero =>
            obtain rfl : p = q := by simpa using found
            have own := load_store_same c.memory 4 p i
            rw [others p held.1 new]
            exact own.trans (Nat.mod_eq_of_lt (by omega))
        | succ k =>
            rw [each k q found]
            omega

/-- The sum of the numbers below `i`, and those of the objects from number `i` on. -/
theorem sumAll_numbered (memory : Memory) (i : Nat) (valid : 0 ∉ pointers)
    (numbered : ∀ k p, pointers[k]? = some p → load memory 4 p = i + k)
    (fits : (i + pointers.length) * (i + pointers.length - 1) / 2 < 2 ^ 31)
    (small : i + pointers.length ≤ 2 ^ 31) :
    sumAll memory ((i * (i - 1) / 2 : Nat) : Int) pointers =
      some (((i + pointers.length) * (i + pointers.length - 1) / 2 : Nat) : Int) := by
  induction pointers generalizing i with
  | nil => rfl
  | cons p rest ih =>
      rw [List.mem_cons, not_or] at valid
      rw [List.length_cons] at fits small ⊢
      have shape : i + (rest.length + 1) = i + 1 + rest.length := by omega
      rw [shape] at fits small ⊢
      have own : load memory 4 p = i := numbered 0 p rfl
      have further := Nat.triangle_succ i
      have within : (i + 1) * (i + 1 - 1) / 2 ≤ (i + 1 + rest.length) * (i + 1 + rest.length - 1) / 2 :=
        Nat.div_le_div_right (Nat.mul_le_mul (by omega) (by omega))
      have next : ((i * (i - 1) / 2 : Nat) : Int) + Word.toInt (load memory 4 p) =
          ((i + 1) * (i + 1 - 1) / 2 : Nat) := by
        rw [own, Word.toInt_exact i (by omega), further]
        omega
      have added := ih (i + 1) valid.2 (fun k q found => by rw [numbered (k + 1) q found]; omega) fits small
      simp only [sumAll, if_neg (Ne.symm valid.1), next, checkedInt, bind, Option.bind]
      rw [if_pos (by omega)]
      exact added

theorem freeAll_run (fuel : Nat) (run : Run size ⟨c, live, regions⟩) (perm : live.Perm pointers)
    (enough : regions.length < fuel) :
    ∃ last, freeAll fuel pointers c = some last ∧ Run size ⟨last, [], regions⟩ := by
  induction pointers generalizing c live with
  | nil => exact ⟨c, rfl, perm.eq_nil ▸ run⟩
  | cons p rest ih =>
      obtain ⟨l, related⟩ := run_related size _ run
      have slabs : regions = l.slabs := related.regions
      obtain ⟨next, freed⟩ := cacheFree_returns related.rep fuel p (slabs ▸ enough)
      have member : p ∈ live := perm.mem_iff.mpr List.mem_cons_self
      have run' : Run size ⟨next, live.erase p, regions⟩ := .step run (.free (.inl member) freed)
      obtain ⟨last, later, ended⟩ := ih run' (by simpa using perm.erase p)
      exact ⟨last, by rw [freeAll, freed]; exact later, ended⟩

end Loops

theorem started_run (memory : Memory) (size : Nat) (fits : size ≤ 32720) :
    cacheInit memory size = some ⟨memory, 0, 0, storedSize size, 32720 / storedSize size⟩ ∧
      Run size ⟨⟨memory, 0, 0, storedSize size, 32720 / storedSize size⟩, [], []⟩ := by
  have exact := storedSize_exact size (by omega)
  have initialized := cacheInit_eq memory size
  rw [if_neg (by omega)] at initialized
  exact ⟨initialized, fitting_run size fits _ (.start ⟨rfl, rfl, memory, initialized⟩)⟩

theorem numberAll_null (i : Nat) (pointers : List Nat) (memory : Memory) (null : 0 ∈ pointers) :
    numberAll i pointers memory = none := by
  induction pointers generalizing i memory with
  | nil => exact absurd null List.not_mem_nil
  | cons p rest ih =>
      rw [numberAll]
      split
      · rfl
      · next valid => exact ih _ _ ((List.mem_cons.mp null).resolve_left (Ne.symm valid))

/-- As long as `int` holds `n * (n - 1)` the sum is as expected and no slab counts an
object at the end, unless one of the calls of `mmap` fails: then `main` crashes. -/
theorem numbers_added (memory : Memory) (mmap : List Nat → Option Nat) (fuel size n : Nat)
    (answers : ∀ regions s, mmap regions = some s → Fresh regions s) (room : size ≤ 32720)
    (fits : n * (n - 1) < 2 ^ 31) (enough : n < fuel) :
    ∃ cc, cacheInit memory size = some cc ∧
      (Refused mmap n cc [] [] → main memory mmap fuel size n = none) ∧
      (¬ Refused mmap n cc [] [] → ∃ cache regions, main memory mmap fuel size n =
          some ⟨32, storedSize size, 32720 / storedSize size, (n * (n - 1) / 2 : Nat),
            (n * (n - 1) / 2 : Nat), cache, regions⟩ ∧
        CacheInvariant cache [] regions ∧ ∀ s ∈ regions, inUse cache.memory s = 0) := by
  obtain ⟨initialized, begun⟩ := started_run memory size room
  obtain ⟨c, regions, pointers, live, allocated, length, bound, run, all, nulls⟩ :=
    allocAll_run n begun (show 0 ∉ ([] : List Nat) → [] = [].reverse from fun _ => rfl) answers
  rw [List.nil_append] at allocated all
  refine ⟨_, initialized, ?_, ?_⟩
  · intro refused
    have null := nulls.mpr refused
    simp only [main, initialized, allocated, numberAll_null 0 pointers c.memory null, bind, Option.bind]
  · intro served
    have null : 0 ∉ pointers := fun null => served (nulls.mp null)
    have order := all null
    subst order
    obtain ⟨l, related⟩ := run_related size _ run
    have distinct : pointers.Nodup := List.nodup_reverse.mp related.distinct
    have small : n ≤ 2 ^ 31 := by
      by_contra large
      have growth : 2 ^ 31 * 1 ≤ n * (n - 1) := Nat.mul_le_mul (by omega) (by omega)
      omega
    obtain ⟨numbered, stored, run', -, each⟩ := numberAll_run 0 run distinct
      (fun p member => List.mem_reverse.mpr member) null (by omega)
    have summed := sumAll_numbered numbered 0 null each (by rw [length, Nat.zero_add]; omega) (by omega)
    rw [length, Nat.zero_add] at summed
    have sum : sumAll numbered 0 pointers = some ((n * (n - 1) / 2 : Nat) : Int) := summed
    obtain ⟨last, freed, ended⟩ := freeAll_run fuel run' (List.reverse_perm pointers)
      (Nat.lt_of_le_of_lt (by simpa using bound) enough)
    have product : (n : Int) * (n - 1) = (n * (n - 1) : Nat) := by
      cases n with
      | zero => rfl
      | succ n => simp
    have checked : checkedInt ((n : Int) * (n - 1)) = some ((n * (n - 1) : Nat) : Int) := by
      rw [product]
      exact if_pos (by omega)
    obtain ⟨_, related'⟩ := run_related size _ ended
    have invariant := related_invariant related'
    refine ⟨last, regions, ?_, invariant, fun s member => (invariant.slabs s member).counted⟩
    simp only [main, initialized, allocated, stored, sum, freed, checked, bind, Option.bind, pure]
    rfl

def oneRegion (regions : List Nat) : Option Nat := if regions = [] then some 4096 else none

theorem numbers_added_pair : ∃ cache regions, main (fun _ => 0) oneRegion 3 16000 2 =
    some ⟨32, 16000, 2, 1, 1, cache, regions⟩ ∧ ∀ s ∈ regions, inUse cache.memory s = 0 := by
  have answers : ∀ regions s, oneRegion regions = some s → Fresh regions s := by
    intro regions s answered
    by_cases first : regions = []
    · rw [oneRegion, if_pos first] at answered
      exact first ▸ first_fresh s answered
    · rw [oneRegion, if_neg first] at answered
      cases answered
  obtain ⟨cc, -, crashes, served⟩ :=
    numbers_added (fun _ => 0) oneRegion 3 16000 2 answers (by decide) (by decide) (by decide)
  by_cases refused : Refused oneRegion 2 cc [] []
  · have returns : (main (fun _ => 0) oneRegion 3 16000 2).isSome = true := by decide +kernel
    rw [crashes refused] at returns
    cases returns
  · obtain ⟨cache, regions, printed, -, counted⟩ := served refused
    exact ⟨cache, regions, printed, counted⟩

end LinuxMemory.Slab
