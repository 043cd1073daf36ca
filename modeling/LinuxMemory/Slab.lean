import LinuxMemory.Word
import LinuxMemory.ByteMemory
import LinuxMemory.LinkedList
import LinuxMemory.Transition

/-!
The slab cache of `14_putting_it_together/03_slab.c`. Pointers are addresses and
`NULL` is 0. A `Slab` is a header at the start of its mapped region, with the
fields at offsets 0, 8, 16, 24, 28, 32 and 40; the two `int` fields take four
bytes. The `Cache` itself lies outside the regions. `mmap` is a parameter: the
region it returned, if it did. `none` stands for what C leaves undefined, a
division by zero or a read through `NULL`, and for a search that outlasts its
fuel.
-/

namespace LinuxMemory.Slab

open ByteMemory

def slabBytes : Nat := 32 * 1024

def align : Nat := 16

def header : Nat := Word.roundUp align 48

structure Cache where
  memory : Memory
  allSlabs : Nat
  partialSlabs : Nat
  objSz : Nat
  objsPerSlab : Nat

def nextAll (m : Memory) (s : Nat) : Nat := loadWord m s

def nextPartial (m : Memory) (s : Nat) : Nat := loadWord m (s + 8)

def free (m : Memory) (s : Nat) : Nat := loadWord m (s + 16)

def inUse (m : Memory) (s : Nat) : Nat := load m 4 (s + 24)

def capacity (m : Memory) (s : Nat) : Nat := load m 4 (s + 28)

def base (m : Memory) (s : Nat) : Nat := loadWord m (s + 32)

def fin (m : Memory) (s : Nat) : Nat := loadWord m (s + 40)

def setNextAll (m : Memory) (s value : Nat) : Memory := storeWord m s value

def setNextPartial (m : Memory) (s value : Nat) : Memory := storeWord m (s + 8) value

def setFree (m : Memory) (s value : Nat) : Memory := storeWord m (s + 16) value

def setInUse (m : Memory) (s value : Nat) : Memory := store m 4 (s + 24) value

def setCapacity (m : Memory) (s value : Nat) : Memory := store m 4 (s + 28) value

def setBase (m : Memory) (s value : Nat) : Memory := storeWord m (s + 32) value

def setFin (m : Memory) (s value : Nat) : Memory := storeWord m (s + 40) value

def next (m : Memory) (n : Nat) : Nat := loadWord m n

def setNext (m : Memory) (n value : Nat) : Memory := storeWord m n value

def cacheInit (memory : Memory) (objSz : Nat) : Option Cache :=
  let objSz := if objSz < 8 then 8 else objSz
  let objSz := Word.roundUp align objSz
  if objSz = 0 then none
  else some ⟨memory, 0, 0, objSz, (slabBytes - header) / objSz⟩

/-- The loop of `new_slab` from object `i` on. -/
def carve (s objSz : Nat) : Nat → Nat → Memory → Memory
  | 0, _, m => m
  | rounds + 1, i, m =>
      let n := Word.add (base m s) (Word.mul i objSz)
      let m := setNext m n (free m s)
      carve s objSz rounds (i + 1) (setFree m s n)

/-- `new_slab` when `mmap` returned `mapped`. -/
def newSlab (c : Cache) (mapped : Option Nat) : Cache × Nat :=
  match mapped with
  | none => (c, 0)
  | some s =>
      let m := setBase c.memory s (Word.add s header)
      let m := setFin m s (Word.add (base m s) (Word.mul c.objsPerSlab c.objSz))
      let m := setInUse m s 0
      let m := setCapacity m s c.objsPerSlab
      let m := setFree m s 0
      let m := carve s c.objSz c.objsPerSlab 0 m
      let m := setNextAll m s c.allSlabs
      let m := setNextPartial m s c.partialSlabs
      ({ c with memory := m, allSlabs := s, partialSlabs := s }, s)

def popObject (c : Cache) : Option (Cache × Nat) :=
  let s := c.partialSlabs
  let n := free c.memory s
  if n = 0 then none
  else
    let m := setFree c.memory s (next c.memory n)
    let m := setInUse m s (inUse m s + 1)
    let c := { c with memory := m }
    some (if free m s = 0 then { c with partialSlabs := nextPartial m s } else c, n)

def cacheAlloc (c : Cache) (mapped : Option Nat) : Option (Cache × Nat) :=
  if c.partialSlabs = 0 then
    let (c, s) := newSlab c mapped
    if s = 0 then some (c, 0) else popObject c
  else popObject c

def findSlab (fuel : Nat) (c : Cache) (p : Nat) : Option Nat :=
  LinkedList.scan 0 (nextAll c.memory)
    (fun s => decide (base c.memory s ≤ p) && decide (p < fin c.memory s)) fuel c.allSlabs

def pushObject (c : Cache) (s p : Nat) : Cache :=
  let wasFull := free c.memory s = 0
  let m := setNext c.memory p (free c.memory s)
  let m := setFree m s p
  -- `in_use--` on the two's complement of the field
  let m := setInUse m s (inUse m s + (2 ^ 32 - 1))
  if wasFull then { c with memory := setNextPartial m s c.partialSlabs, partialSlabs := s }
  else { c with memory := m }

def cacheFree (fuel : Nat) (c : Cache) (p : Nat) : Option Cache :=
  (findSlab fuel c p).map fun s => if s = 0 then c else pushObject c s p

/-! A run: the cache, the objects that the client holds, and the regions that
`mmap` has returned. -/

structure Client where
  cache : Cache
  live : List Nat
  regions : List Nat

inductive Event where
  | alloc (mapped : Option Nat) (p : Nat)
  | free (p : Nat)
  | write (address : Nat) (value : UInt8)

/-- A region that `mmap` may return next to the ones it has returned. -/
structure Fresh (regions : List Nat) (s : Nat) : Prop where
  aligned : s % 4096 = 0
  valid : 0 < s
  below : s + slabBytes < 2 ^ 64
  apart : ∀ r ∈ regions, s + slabBytes ≤ r ∨ r + slabBytes ≤ s

def Foreign (c : Cache) (regions : List Nat) (p : Nat) : Prop :=
  ∀ s ∈ regions, ¬ (base c.memory s ≤ p ∧ p < fin c.memory s)

inductive Step : Client → Event → Client → Prop where
  | alloc {c : Client} {mapped : Option Nat} {p : Nat} {cache : Cache}
      (success : ∀ s ∈ mapped, Fresh c.regions s)
      (returned : cacheAlloc c.cache mapped = some (cache, p)) :
      Step c (.alloc mapped p) ⟨cache, if p = 0 then c.live else p :: c.live,
        if c.cache.partialSlabs = 0 then mapped.toList ++ c.regions else c.regions⟩
  | free {c : Client} {fuel p : Nat} {cache : Cache}
      (held : p ∈ c.live ∨ Foreign c.cache c.regions p)
      (returned : cacheFree fuel c.cache p = some cache) :
      Step c (.free p) ⟨cache, c.live.erase p, c.regions⟩
  | write {c : Client} {p address : Nat} {value : UInt8} (held : p ∈ c.live)
      (inside : p ≤ address ∧ address < p + c.cache.objSz) :
      Step c (.write address value) { c with cache.memory := poke c.cache.memory address value }

/-- A cache whose slabs hold at least one object, over whatever the memory held. -/
def Started (objSz : Nat) (c : Client) : Prop :=
  objSz < 2 ^ 64 ∧ c.live = [] ∧ c.regions = [] ∧ 1 ≤ c.cache.objsPerSlab ∧
    ∃ memory, cacheInit memory objSz = some c.cache

def system (objSz : Nat) : Transition.System Client Event := ⟨Started objSz, Step⟩

abbrev Run (objSz : Nat) : Client → Prop := Transition.Reachable (system objSz)

end LinuxMemory.Slab
