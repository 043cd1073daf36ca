import LinuxMemory.Slab
import Mathlib.Data.List.Perm.Subperm

/-!
One slab of the cache: what its header and free list represent, and what pushing
and popping an object and carving a fresh region do to it. Every such operation
writes only inside the region of its slab.
-/

namespace LinuxMemory.Slab

open ByteMemory LinkedList

structure Header where
  nextAll : Nat
  nextPartial : Nat
  free : Nat
  inUse : Nat
  capacity : Nat
  base : Nat
  fin : Nat

def headerAt (m : Memory) (s : Nat) : Header :=
  ⟨nextAll m s, nextPartial m s, free m s, inUse m s, capacity m s, base m s, fin m s⟩

def Agree (m m' : Memory) (start size : Nat) : Prop :=
  ∀ byte, start ≤ byte → byte < start + size → m' byte = m byte

def AgreeOutside (m m' : Memory) (start size : Nat) : Prop :=
  ∀ byte, byte < start ∨ start + size ≤ byte → m' byte = m byte

theorem agreeOutside_trans (m m' m'' : Memory) (start size : Nat) (left : AgreeOutside m m' start size)
    (right : AgreeOutside m' m'' start size) : AgreeOutside m m'' start size :=
  fun byte outside => (right byte outside).trans (left byte outside)

theorem agreeOutside_store (m : Memory) (width address value start size : Nat) (low : start ≤ address)
    (high : address + width ≤ start + size) :
    AgreeOutside m (store m width address value) start size := by
  intro byte outside
  apply store_outside
  omega

theorem agree_load (m m' : Memory) (start size width address : Nat) (same : Agree m m' start size)
    (low : start ≤ address) (high : address + width ≤ start + size) :
    load m' width address = load m width address :=
  load_congr m m' width address fun byte lower upper => same byte (by omega) (by omega)

theorem headerAt_agree (m m' : Memory) (s : Nat) (same : Agree m m' s 48) :
    headerAt m' s = headerAt m s := by
  have read : ∀ width offset, offset + width ≤ 48 → load m' width (s + offset) = load m width (s + offset) :=
    fun width offset inside => agree_load m m' s 48 width _ same (Nat.le_add_right _ _) (by omega)
  unfold headerAt nextAll nextPartial free inUse capacity base fin loadWord
  rw [read 8 8 (by decide), read 8 16 (by decide), read 4 24 (by decide), read 4 28 (by decide),
    read 8 32 (by decide), read 8 40 (by decide), ← Nat.add_zero s, read 8 0 (by decide)]

theorem headerAt_fields (m : Memory) (s : Nat) (h : Header) (same : headerAt m s = h) :
    nextAll m s = h.nextAll ∧ nextPartial m s = h.nextPartial ∧ free m s = h.free ∧
      inUse m s = h.inUse ∧ capacity m s = h.capacity ∧ base m s = h.base ∧ fin m s = h.fin := by
  subst same
  exact ⟨rfl, rfl, rfl, rfl, rfl, rfl, rfl⟩

theorem headerAt_store (m : Memory) (s width address value : Nat)
    (outside : address + width ≤ s ∨ s + 48 ≤ address) :
    headerAt (store m width address value) s = headerAt m s := by
  apply headerAt_agree
  intro byte low high
  apply store_outside
  omega

section Fields
variable (m : Memory) (s value : Nat)

theorem field_apart (width offset width' offset' : Nat)
    (apart : offset + width ≤ offset' ∨ offset' + width' ≤ offset) :
    load (store m width' (s + offset') value) width (s + offset) = load m width (s + offset) := by
  apply load_store_apart
  unfold Apart
  omega

theorem first_apart (width width' offset' : Nat) (apart : width ≤ offset') :
    load (store m width' (s + offset') value) width s = load m width s := by
  apply load_store_apart
  unfold Apart
  omega

theorem after_first (width offset : Nat) (apart : 8 ≤ offset) :
    load (store m 8 s value) width (s + offset) = load m width (s + offset) := by
  apply load_store_apart
  unfold Apart
  omega

theorem word_same (address : Nat) (bounded : value < 2 ^ 64) :
    load (store m 8 address value) 8 address = value :=
  (load_store_same m 8 address value).trans (Nat.mod_eq_of_lt (by simpa using bounded))

theorem int_same (address : Nat) :
    load (store m 4 address value) 4 address = value % 2 ^ 32 := by
  have size : 256 ^ 4 = 2 ^ 32 := by decide
  rw [load_store_same, size]

theorem headerAt_setNextAll (bounded : value < 2 ^ 64) :
    headerAt (setNextAll m s value) s = { headerAt m s with nextAll := value } := by
  simp only [headerAt, setNextAll, nextAll, nextPartial, free, inUse, capacity, base, fin, loadWord, storeWord]
  simp (disch := decide) only [word_same m value s bounded, after_first]

theorem headerAt_setNextPartial (bounded : value < 2 ^ 64) :
    headerAt (setNextPartial m s value) s = { headerAt m s with nextPartial := value } := by
  simp only [headerAt, setNextPartial, nextAll, nextPartial, free, inUse, capacity, base, fin, loadWord, storeWord]
  simp (disch := decide) only [word_same m value (s + 8) bounded, first_apart, field_apart]

theorem headerAt_setFree (bounded : value < 2 ^ 64) :
    headerAt (setFree m s value) s = { headerAt m s with free := value } := by
  simp only [headerAt, setFree, nextAll, nextPartial, free, inUse, capacity, base, fin, loadWord, storeWord]
  simp (disch := decide) only [word_same m value (s + 16) bounded, first_apart, field_apart]

theorem headerAt_setInUse :
    headerAt (setInUse m s value) s = { headerAt m s with inUse := value % 2 ^ 32 } := by
  simp only [headerAt, setInUse, nextAll, nextPartial, free, inUse, capacity, base, fin, loadWord]
  simp (disch := decide) only [int_same m value (s + 24), first_apart, field_apart]

theorem headerAt_setCapacity :
    headerAt (setCapacity m s value) s = { headerAt m s with capacity := value % 2 ^ 32 } := by
  simp only [headerAt, setCapacity, nextAll, nextPartial, free, inUse, capacity, base, fin, loadWord]
  simp (disch := decide) only [int_same m value (s + 28), first_apart, field_apart]

theorem headerAt_setBase (bounded : value < 2 ^ 64) :
    headerAt (setBase m s value) s = { headerAt m s with base := value } := by
  simp only [headerAt, setBase, nextAll, nextPartial, free, inUse, capacity, base, fin, loadWord, storeWord]
  simp (disch := decide) only [word_same m value (s + 32) bounded, first_apart, field_apart]

theorem headerAt_setFin (bounded : value < 2 ^ 64) :
    headerAt (setFin m s value) s = { headerAt m s with fin := value } := by
  simp only [headerAt, setFin, nextAll, nextPartial, free, inUse, capacity, base, fin, loadWord, storeWord]
  simp (disch := decide) only [word_same m value (s + 40) bounded, first_apart, field_apart]

end Fields

/-! Objects of a slab. -/

/-- What `cache_init` settles once and for all. -/
structure Geometry (objSz count : Nat) : Prop where
  whole : objSz % 16 = 0
  large : 16 ≤ objSz
  nonempty : 1 ≤ count
  fits : 48 + count * objSz ≤ 32768

structure Placed (s : Nat) : Prop where
  aligned : s % 4096 = 0
  valid : 0 < s
  below : s + 32768 < 2 ^ 64

def object (objSz s i : Nat) : Nat := s + 48 + i * objSz

def objects (objSz count s : Nat) : List Nat := (List.range count).map (object objSz s)

structure Carved (m : Memory) (objSz count s : Nat) (nodes : List Nat) : Prop where
  base : base m s = s + 48
  fin : fin m s = s + 48 + count * objSz
  capacity : capacity m s = count
  links : Linked 0 (next m) (free m s) nodes
  objects : ∀ o ∈ nodes, o ∈ objects objSz count s

theorem header_eq : header = 48 := by decide

theorem slabBytes_eq : slabBytes = 32768 := by decide

theorem geometry_cacheInit (memory : Memory) (objSz : Nat) (c : Cache)
    (returned : cacheInit memory objSz = some c) (nonempty : 1 ≤ c.objsPerSlab) :
    Geometry c.objSz c.objsPerSlab ∧ c.allSlabs = 0 ∧ c.partialSlabs = 0 := by
  unfold cacheInit at returned
  dsimp only at returned
  generalize (if objSz < 8 then 8 else objSz) = asked at returned
  have rounded : Word.roundUp align asked = Word.add asked 15 / 16 * 16 :=
    Word.roundUp_eq 4 asked (by decide)
  rw [rounded] at returned
  by_cases zero : Word.add asked 15 / 16 * 16 = 0
  · rw [if_pos zero] at returned
    cases returned
  · rw [if_neg zero] at returned
    obtain rfl := Option.some.inj returned
    have room := Nat.div_mul_le_self (slabBytes - header) (Word.add asked 15 / 16 * 16)
    rw [header_eq, slabBytes_eq] at room
    simp only [header_eq, slabBytes_eq] at nonempty ⊢
    exact ⟨⟨Nat.mul_mod_left _ _, by omega, nonempty, by omega⟩, trivial, trivial⟩

section Objects
variable {objSz count s : Nat} {m : Memory} {nodes : List Nat}

theorem mem_objects (o : Nat) : o ∈ objects objSz count s ↔ ∃ i < count, object objSz s i = o := by
  simp [objects]

theorem object_bounds (geometry : Geometry objSz count) (o : Nat) (member : o ∈ objects objSz count s) :
    s + 48 ≤ o ∧ o + objSz ≤ s + 48 + count * objSz ∧ (o - s) % 16 = 0 := by
  obtain ⟨i, below, rfl⟩ := (mem_objects o).mp member
  have last : (i + 1) * objSz ≤ count * objSz := Nat.mul_le_mul_right _ below
  have offset : (i * objSz) % 16 = 0 := by rw [Nat.mul_mod, geometry.whole]; simp
  rw [Nat.succ_mul] at last
  unfold object
  omega

theorem objects_apart (o o' : Nat) (member : o ∈ objects objSz count s)
    (member' : o' ∈ objects objSz count s) (different : o ≠ o') : o + objSz ≤ o' ∨ o' + objSz ≤ o := by
  obtain ⟨i, -, rfl⟩ := (mem_objects o).mp member
  obtain ⟨j, -, rfl⟩ := (mem_objects o').mp member'
  unfold object at different ⊢
  rcases Nat.lt_trichotomy i j with before | rfl | after
  · have step : (i + 1) * objSz ≤ j * objSz := Nat.mul_le_mul_right _ before
    rw [Nat.succ_mul] at step
    omega
  · exact absurd rfl different
  · have step : (j + 1) * objSz ≤ i * objSz := Nat.mul_le_mul_right _ after
    rw [Nat.succ_mul] at step
    omega

/-- A slab only depends on its header and on the links of its free objects. -/
theorem carved_congr (m' : Memory) (carved : Carved m objSz count s nodes)
    (same : base m' s = base m s ∧ fin m' s = fin m s ∧ capacity m' s = capacity m s ∧
      free m' s = free m s)
    (links : ∀ o ∈ nodes, next m' o = next m o) : Carved m' objSz count s nodes := by
  obtain ⟨sameBase, sameFin, sameCapacity, sameFree⟩ := same
  refine ⟨sameBase.trans carved.base, sameFin.trans carved.fin, sameCapacity.trans carved.capacity, ?_,
    carved.objects⟩
  rw [sameFree]
  exact linked_congr _ _ carved.links links

theorem carved_agree (geometry : Geometry objSz count) (m' : Memory)
    (carved : Carved m objSz count s nodes) (same : Agree m m' s 32768) :
    Carved m' objSz count s nodes := by
  have headers := headerAt_agree m m' s (fun byte low high => same byte low (by omega))
  obtain ⟨-, -, sameFree, -, sameCapacity, sameBase, sameFin⟩ := headerAt_fields _ _ _ headers
  refine carved_congr m' carved ⟨sameBase, sameFin, sameCapacity, sameFree⟩ ?_
  intro o member
  have bounds := object_bounds geometry o (carved.objects o member)
  have room := geometry.fits
  have size := geometry.large
  exact agree_load m m' s 32768 8 o same (by omega) (by omega)

theorem next_header (geometry : Geometry objSz count) (o width offset value : Nat)
    (member : o ∈ objects objSz count s) (inside : offset + width ≤ 48) :
    next (store m width (s + offset) value) o = next m o := by
  have bounds := object_bounds geometry o member
  apply load_store_apart
  unfold Apart
  omega

theorem carved_push (geometry : Geometry objSz count) (placed : Placed s)
    (carved : Carved m objSz count s nodes) (o : Nat) (member : o ∈ objects objSz count s)
    (fresh : o ∉ nodes) :
    Carved (setFree (setNext m o (free m s)) s o) objSz count s (o :: nodes) ∧
    headerAt (setFree (setNext m o (free m s)) s o) s = { headerAt m s with free := o } ∧
    AgreeOutside m (setFree (setNext m o (free m s)) s o) s 32768 := by
  have bounds := object_bounds geometry o member
  have room := geometry.fits
  have size := geometry.large
  have below := placed.below
  have headers : headerAt (setFree (setNext m o (free m s)) s o) s = { headerAt m s with free := o } := by
    rw [headerAt_setFree _ _ _ (by omega), setNext, headerAt_store _ _ _ _ _ (by omega)]
  -- the write to `next` of `o` and the one to the header miss the other links
  have stays : ∀ o' ∈ objects objSz count s, o' ≠ o →
      next (setFree (setNext m o (free m s)) s o) o' = next m o' := by
    intro o' member' different
    have apart := objects_apart o o' member member' (Ne.symm different)
    rw [setFree, next_header geometry o' 8 16 o member' (by decide)]
    apply load_store_apart
    unfold Apart
    omega
  obtain ⟨-, -, head, -, sameCapacity, sameBase, sameFin⟩ := headerAt_fields _ _ _ headers
  refine ⟨⟨sameBase.trans carved.base, sameFin.trans carved.fin, sameCapacity.trans carved.capacity,
    ?_, ?_⟩, headers, ?_⟩
  · rw [head]
    apply linked_push (free m s) o nodes carved.links (by omega)
    · rw [setFree, next_header geometry o 8 16 o member (by decide)]
      exact word_same m _ o (loadWord_lt m (s + 16))
    · intro o' inside
      exact stays o' (carved.objects o' inside) (fun same => fresh (same ▸ inside))
  · intro o' inside
    rcases List.mem_cons.mp inside with rfl | later
    · exact member
    · exact carved.objects o' later
  · apply agreeOutside_trans _ (setNext m o (free m s))
    · exact agreeOutside_store m 8 o _ s 32768 (by omega) (by omega)
    · exact agreeOutside_store _ 8 (s + 16) _ s 32768 (by omega) (by omega)

theorem carved_pop (geometry : Geometry objSz count) (o : Nat)
    (carved : Carved m objSz count s (o :: nodes)) :
    Carved (setFree m s (next m o)) objSz count s nodes ∧
    headerAt (setFree m s (next m o)) s = { headerAt m s with free := next m o } ∧
    AgreeOutside m (setFree m s (next m o)) s 32768 := by
  have headers := headerAt_setFree m s (next m o) (loadWord_lt m o)
  have inList : ∀ o' ∈ nodes, o' ∈ objects objSz count s :=
    fun o' member => carved.objects o' (List.mem_cons_of_mem _ member)
  obtain ⟨-, -, head, -, sameCapacity, sameBase, sameFin⟩ := headerAt_fields _ _ _ headers
  refine ⟨⟨sameBase.trans carved.base, sameFin.trans carved.fin, sameCapacity.trans carved.capacity,
    ?_, inList⟩, headers, ?_⟩
  · rw [head]
    apply linked_congr _ _ carved.links.2.2
    intro o' member
    exact next_header geometry o' 8 16 _ (inList o' member) (by decide)
  · exact agreeOutside_store m 8 (s + 16) _ s 32768 (by omega) (by omega)

theorem carved_setNextAll (geometry : Geometry objSz count) (carved : Carved m objSz count s nodes)
    (value : Nat) (bounded : value < 2 ^ 64) : Carved (setNextAll m s value) objSz count s nodes := by
  obtain ⟨-, -, sameFree, -, sameCapacity, sameBase, sameFin⟩ :=
    headerAt_fields _ _ _ (headerAt_setNextAll m s value bounded)
  exact carved_congr _ carved ⟨sameBase, sameFin, sameCapacity, sameFree⟩ fun o member =>
    next_header geometry o 8 0 value (carved.objects o member) (by decide)

theorem carved_setNextPartial (geometry : Geometry objSz count)
    (carved : Carved m objSz count s nodes) (value : Nat) (bounded : value < 2 ^ 64) :
    Carved (setNextPartial m s value) objSz count s nodes := by
  obtain ⟨-, -, sameFree, -, sameCapacity, sameBase, sameFin⟩ :=
    headerAt_fields _ _ _ (headerAt_setNextPartial m s value bounded)
  exact carved_congr _ carved ⟨sameBase, sameFin, sameCapacity, sameFree⟩ fun o member =>
    next_header geometry o 8 8 value (carved.objects o member) (by decide)

theorem carved_setInUse (geometry : Geometry objSz count) (carved : Carved m objSz count s nodes)
    (value : Nat) : Carved (setInUse m s value) objSz count s nodes := by
  obtain ⟨-, -, sameFree, -, sameCapacity, sameBase, sameFin⟩ :=
    headerAt_fields _ _ _ (headerAt_setInUse m s value)
  exact carved_congr _ carved ⟨sameBase, sameFin, sameCapacity, sameFree⟩ fun o member =>
    next_header geometry o 4 24 value (carved.objects o member) (by decide)

/-! One object more, one object less. -/

/-- A change inside the region of a slab that keeps its place in both lists:
`nodes` are free afterwards, and `in_use` counts the others. -/
structure Changed (m m' : Memory) (objSz count s : Nat) (nodes : List Nat) : Prop where
  carved : Carved m' objSz count s nodes
  counted : inUse m' s + nodes.length = count
  nextAll : nextAll m' s = nextAll m s
  nextPartial : nextPartial m' s = nextPartial m s
  outside : AgreeOutside m m' s 32768

theorem count_int (geometry : Geometry objSz count) : count < 2 ^ 32 := by
  have room := geometry.fits
  have size := geometry.large
  have few : count ≤ count * objSz := Nat.le_mul_of_pos_right _ (by omega)
  omega

theorem changed_pop (geometry : Geometry objSz count) (o : Nat)
    (carved : Carved m objSz count s (o :: nodes))
    (counted : inUse m s + (o :: nodes).length = count) :
    Changed m (setInUse (setFree m s (next m o)) s (inUse (setFree m s (next m o)) s + 1))
      objSz count s nodes := by
  have few := count_int geometry
  obtain ⟨popped, headers, outside⟩ := carved_pop geometry o carved
  obtain ⟨isNextAll, isNextPartial, -, isInUse, -⟩ := headerAt_fields _ _ _ headers
  -- from here on only the memory after the pop matters
  generalize setFree m s (next m o) = m₁ at popped outside isNextAll isNextPartial isInUse ⊢
  obtain ⟨isNextAll', isNextPartial', -, isInUse', -⟩ :=
    headerAt_fields _ _ _ (headerAt_setInUse m₁ s (inUse m₁ s + 1))
  refine ⟨carved_setInUse geometry popped _, ?_, isNextAll'.trans isNextAll,
    isNextPartial'.trans isNextPartial, ?_⟩
  · simp only [headerAt, List.length_cons] at isInUse isInUse' counted
    rw [isInUse', isInUse, Nat.mod_eq_of_lt (by omega)]
    omega
  · exact agreeOutside_trans _ _ _ _ _ outside
      (agreeOutside_store _ 4 (s + 24) _ s 32768 (by omega) (by omega))

theorem free_length_lt (carved : Carved m objSz count s nodes) (o : Nat)
    (member : o ∈ objects objSz count s) (fresh : o ∉ nodes) : nodes.length < count := by
  have distinct : (o :: nodes).Nodup := List.nodup_cons.mpr ⟨fresh, linked_nodup _ _ carved.links⟩
  have inside : o :: nodes ⊆ objects objSz count s := by
    intro o' listed
    rcases List.mem_cons.mp listed with rfl | later
    · exact member
    · exact carved.objects o' later
  have short := (distinct.subperm inside).length_le
  simp only [List.length_cons, objects, List.length_map, List.length_range] at short
  exact short

theorem changed_push (geometry : Geometry objSz count) (placed : Placed s)
    (carved : Carved m objSz count s nodes) (counted : inUse m s + nodes.length = count) (o : Nat)
    (member : o ∈ objects objSz count s) (fresh : o ∉ nodes) :
    Changed m (setInUse (setFree (setNext m o (free m s)) s o) s
      (inUse (setFree (setNext m o (free m s)) s o) s + (2 ^ 32 - 1))) objSz count s (o :: nodes) := by
  have few := count_int geometry
  have short := free_length_lt carved o member fresh
  obtain ⟨pushed, headers, outside⟩ := carved_push geometry placed carved o member fresh
  obtain ⟨isNextAll, isNextPartial, -, isInUse, -⟩ := headerAt_fields _ _ _ headers
  generalize setFree (setNext m o (free m s)) s o = m₁ at pushed outside isNextAll isNextPartial isInUse ⊢
  obtain ⟨isNextAll', isNextPartial', -, isInUse', -⟩ :=
    headerAt_fields _ _ _ (headerAt_setInUse m₁ s (inUse m₁ s + (2 ^ 32 - 1)))
  refine ⟨carved_setInUse geometry pushed _, ?_, isNextAll'.trans isNextAll,
    isNextPartial'.trans isNextPartial, ?_⟩
  · simp only [headerAt, List.length_cons] at isInUse isInUse' ⊢
    -- `in_use - 1` as a 32-bit sum
    rw [isInUse', isInUse]
    omega
  · exact agreeOutside_trans _ _ _ _ _ outside
      (agreeOutside_store _ 4 (s + 24) _ s 32768 (by omega) (by omega))

/-! A fresh slab. -/

/-- The first `i` objects, the last one first, as the loop of `new_slab` links them. -/
def objectsDown (objSz s i : Nat) : List Nat := (List.range i).reverse.map (object objSz s)

theorem objectsDown_succ (i : Nat) :
    objectsDown objSz s (i + 1) = object objSz s i :: objectsDown objSz s i := by
  simp [objectsDown, List.range_succ]

theorem mem_objectsDown (i o : Nat) : o ∈ objectsDown objSz s i ↔ ∃ j < i, object objSz s j = o := by
  simp [objectsDown]

theorem object_injective (geometry : Geometry objSz count) (i j : Nat)
    (same : object objSz s i = object objSz s j) : i = j := by
  have positive : 0 < objSz := Nat.lt_of_lt_of_le (by decide) geometry.large
  exact Nat.eq_of_mul_eq_mul_right positive (Nat.add_left_cancel same)

theorem carved_carve (geometry : Geometry objSz count) (placed : Placed s) (rounds i : Nat) (m : Memory)
    (level : i + rounds = count) (carved : Carved m objSz count s (objectsDown objSz s i)) :
    Carved (carve s objSz rounds i m) objSz count s (objectsDown objSz s count) ∧
    (∃ value, headerAt (carve s objSz rounds i m) s = { headerAt m s with free := value }) ∧
    AgreeOutside m (carve s objSz rounds i m) s 32768 := by
  induction rounds generalizing i m with
  | zero =>
      obtain rfl : i = count := level
      exact ⟨carved, ⟨_, rfl⟩, fun _ _ => rfl⟩
  | succ rounds ih =>
      have below : i < count := by omega
      have room := geometry.fits
      have region := placed.below
      have inside : i * objSz ≤ count * objSz := Nat.mul_le_mul_right _ (Nat.le_of_lt below)
      have address : Word.add (base m s) (Word.mul i objSz) = object objSz s i := by
        rw [carved.base, Word.mul_exact _ _ (by omega), Word.add_exact _ _ (by omega)]
        rfl
      have member : object objSz s i ∈ objects objSz count s := (mem_objects _).mpr ⟨i, below, rfl⟩
      -- the list holds the objects before this one
      have fresh : object objSz s i ∉ objectsDown objSz s i := by
        intro again
        obtain ⟨j, less, same⟩ := (mem_objectsDown i _).mp again
        have twin := object_injective geometry j i same
        omega
      obtain ⟨pushed, headers, outside⟩ := carved_push geometry placed carved _ member fresh
      rw [← objectsDown_succ] at pushed
      rw [carve]
      simp only [address]
      obtain ⟨done, ⟨value, headers'⟩, outside'⟩ := ih (i + 1) _ (by omega) pushed
      refine ⟨done, ⟨value, ?_⟩, agreeOutside_trans _ _ _ _ _ outside outside'⟩
      rw [headers', headers]

end Objects

def initHeader (c : Cache) (s : Nat) : Memory :=
  let m := setBase c.memory s (Word.add s header)
  let m := setFin m s (Word.add (base m s) (Word.mul c.objsPerSlab c.objSz))
  let m := setInUse m s 0
  let m := setCapacity m s c.objsPerSlab
  setFree m s 0

section Fresh
variable {c : Cache} {s : Nat}

theorem headerAt_initHeader (geometry : Geometry c.objSz c.objsPerSlab) (placed : Placed s) :
    headerAt (initHeader c s) s = ⟨nextAll c.memory s, nextPartial c.memory s, 0, 0, c.objsPerSlab,
      s + 48, s + 48 + c.objsPerSlab * c.objSz⟩ := by
  have room := geometry.fits
  have size := geometry.large
  have region := placed.below
  have few : c.objsPerSlab ≤ c.objsPerSlab * c.objSz := Nat.le_mul_of_pos_right _ (by omega)
  have start : Word.add s header = s + 48 := Word.add_exact _ _ (by rw [header_eq]; omega)
  have first : base (setBase c.memory s (s + 48)) s = s + 48 :=
    word_same c.memory (s + 48) (s + 32) (by omega)
  have last : Word.add (s + 48) (Word.mul c.objsPerSlab c.objSz) = s + 48 + c.objsPerSlab * c.objSz := by
    rw [Word.mul_exact _ _ (by omega), Word.add_exact _ _ (by omega)]
  unfold initHeader
  simp only [start, first, last]
  rw [headerAt_setFree _ _ _ (by decide), headerAt_setCapacity, headerAt_setInUse,
    headerAt_setFin _ _ _ (by omega), headerAt_setBase _ _ _ (by omega),
    Nat.mod_eq_of_lt (by omega : c.objsPerSlab < 2 ^ 32)]
  rfl

theorem initHeader_outside : AgreeOutside c.memory (initHeader c s) s 32768 := by
  have field : ∀ (m : Memory) (width offset value : Nat), offset + width ≤ 48 →
      AgreeOutside m (store m width (s + offset) value) s 32768 := fun m width offset value inside =>
    agreeOutside_store m width _ value s 32768 (by omega) (by omega)
  unfold initHeader
  apply agreeOutside_trans _ _ _ _ _ _ (field _ 8 16 _ (by decide))
  apply agreeOutside_trans _ _ _ _ _ _ (field _ 4 28 _ (by decide))
  apply agreeOutside_trans _ _ _ _ _ _ (field _ 4 24 _ (by decide))
  apply agreeOutside_trans _ _ _ _ _ _ (field _ 8 40 _ (by decide))
  exact field _ 8 32 _ (by decide)

/-- What `new_slab` makes of the region it is given. -/
structure Created (c c' : Cache) (s : Nat) : Prop where
  carved : Carved c'.memory c.objSz c.objsPerSlab s (objectsDown c.objSz s c.objsPerSlab)
  nextAll : nextAll c'.memory s = c.allSlabs
  nextPartial : nextPartial c'.memory s = c.partialSlabs
  inUse : inUse c'.memory s = 0
  heads : c'.allSlabs = s ∧ c'.partialSlabs = s
  sizes : c'.objSz = c.objSz ∧ c'.objsPerSlab = c.objsPerSlab
  outside : AgreeOutside c.memory c'.memory s 32768

theorem newSlab_created (geometry : Geometry c.objSz c.objsPerSlab) (placed : Placed s)
    (all : c.allSlabs < 2 ^ 64) (partials : c.partialSlabs < 2 ^ 64) :
    Created c (newSlab c (some s)).1 s ∧ (newSlab c (some s)).2 = s := by
  obtain ⟨sameNextAll, sameNextPartial, sameFree, sameInUse, sameCapacity, sameBase, sameFin⟩ :=
    headerAt_fields _ _ _ (headerAt_initHeader geometry placed)
  -- the loop starts from an empty free list
  have empty : Carved (initHeader c s) c.objSz c.objsPerSlab s (objectsDown c.objSz s 0) :=
    ⟨sameBase, sameFin, sameCapacity, sameFree, fun o member => absurd member List.not_mem_nil⟩
  obtain ⟨carved, ⟨value, headers⟩, outside⟩ :=
    carved_carve geometry placed c.objsPerSlab 0 _ (Nat.zero_add _) empty
  have memory : (newSlab c (some s)).1.memory = setNextPartial (setNextAll
      (carve s c.objSz c.objsPerSlab 0 (initHeader c s)) s c.allSlabs) s c.partialSlabs := rfl
  generalize carve s c.objSz c.objsPerSlab 0 (initHeader c s) = m at carved headers outside memory
  have final := headerAt_setNextPartial (setNextAll m s c.allSlabs) s c.partialSlabs partials
  rw [headerAt_setNextAll m s c.allSlabs all, headers, headerAt_initHeader geometry placed] at final
  obtain ⟨isNextAll, isNextPartial, -, isInUse, -⟩ := headerAt_fields _ _ _ final
  refine ⟨⟨?_, ?_, ?_, ?_, ⟨rfl, rfl⟩, ⟨rfl, rfl⟩, ?_⟩, rfl⟩
  · rw [memory]
    exact carved_setNextPartial geometry (carved_setNextAll geometry carved _ all) _ partials
  · rw [memory]
    exact isNextAll
  · rw [memory]
    exact isNextPartial
  · rw [memory]
    exact isInUse
  · rw [memory]
    apply agreeOutside_trans _ _ _ _ _ (agreeOutside_trans _ _ _ _ _ initHeader_outside outside)
    apply agreeOutside_trans _ (setNextAll m s c.allSlabs)
    · exact agreeOutside_store m 8 s _ s 32768 (by omega) (by omega)
    · exact agreeOutside_store _ 8 (s + 8) _ s 32768 (by omega) (by omega)

end Fresh

end LinuxMemory.Slab
