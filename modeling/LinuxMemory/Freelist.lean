import LinuxMemory.Word
import LinuxMemory.ByteMemory
import LinuxMemory.LinkedList
import LinuxMemory.Transition

/-!
The first-fit allocator of `14_putting_it_together/04_freelist.c`. Pointers are
addresses, `NULL` is 0, and the three fields of a `Hdr` are the words at offsets
0, 8 and 16 of a byte memory. `size_t` and pointer arithmetic wrap at `2 ^ 64`.
The first-fit walk takes a fuel and is `none` when it does not end within it.
-/

namespace LinuxMemory.Freelist

open ByteMemory

def align : Nat := 16

def alignUp (x : Nat) : Nat := Word.roundUp align x

def hdrSz : Nat := alignUp 24

def ftrSz : Nat := alignUp 8

def minChunk : Nat := hdrSz + align + ftrSz

structure Heap where
  memory : Memory
  heapBase : Nat
  heapEnd : Nat
  freeHead : Nat

def sizeFlags (memory : Memory) (h : Nat) : Nat := loadWord memory h

def prevFree (memory : Memory) (h : Nat) : Nat := loadWord memory (h + 8)

def nextFree (memory : Memory) (h : Nat) : Nat := loadWord memory (h + 16)

def csz (memory : Memory) (h : Nat) : Nat := sizeFlags memory h &&& Word.not 1

def cfree (memory : Memory) (h : Nat) : Bool := sizeFlags memory h &&& 1 != 0

def ftrOf (memory : Memory) (h : Nat) : Nat := Word.sub (Word.add h (csz memory h)) ftrSz

def nextOf (memory : Memory) (h : Nat) : Nat := Word.add h (csz memory h)

def prevOf (s : Heap) (h : Nat) : Nat :=
  if h = s.heapBase then 0
  else Word.sub h (sizeFlags s.memory (Word.sub h ftrSz) &&& Word.not 1)

/-- The footer copies the header after the header is written. -/
def setSize (s : Heap) (h size : Nat) (free : Bool) : Heap :=
  let m := storeWord s.memory h (size ||| if free then 1 else 0)
  { s with memory := storeWord m (ftrOf m h) (sizeFlags m h) }

def flInsert (s : Heap) (h : Nat) : Heap :=
  let m := storeWord s.memory (h + 8) 0
  let m := storeWord m (h + 16) s.freeHead
  let m := if s.freeHead ≠ 0 then storeWord m (s.freeHead + 8) h else m
  { s with memory := m, freeHead := h }

def flRemove (s : Heap) (h : Nat) : Heap :=
  let s := if prevFree s.memory h ≠ 0 then
      { s with memory := storeWord s.memory (prevFree s.memory h + 16) (nextFree s.memory h) }
    else { s with freeHead := nextFree s.memory h }
  if nextFree s.memory h ≠ 0 then
    { s with memory := storeWord s.memory (nextFree s.memory h + 8) (prevFree s.memory h) }
  else s

def initCap (cap : Nat) : Nat := Word.roundUp 4096 cap

/-- `my_init` on the region that `mmap` returned; the memory is whatever was
there before. -/
def myInit (memory : Memory) (mapped cap : Nat) : Heap :=
  let s : Heap := ⟨memory, mapped, Word.add mapped (initCap cap), 0⟩
  let s := setSize s mapped (initCap cap) true
  flInsert s mapped

def needOf (req : Nat) : Nat :=
  let need := alignUp (Word.add (Word.add req hdrSz) ftrSz)
  if need < minChunk then minChunk else need

/-- The body of the first-fit loop once a chunk `h` fits. -/
def takeChunk (s : Heap) (h need : Nat) : Heap :=
  let s := flRemove s h
  let leftover := Word.sub (csz s.memory h) need
  if leftover ≥ minChunk then
    let s := setSize s h need false
    let r := nextOf s.memory h
    let s := setSize s r leftover true
    flInsert s r
  else setSize s h (csz s.memory h) false

def firstFit (fuel : Nat) (s : Heap) (need : Nat) : Option Nat :=
  LinkedList.scan 0 (nextFree s.memory) (fun h => decide (csz s.memory h ≥ need)) fuel s.freeHead

def myMalloc (fuel : Nat) (s : Heap) (req : Nat) : Option (Heap × Nat) :=
  if req = 0 then some (s, 0)
  else (firstFit fuel s (needOf req)).map fun h =>
    if h = 0 then (s, 0) else (takeChunk s h (needOf req), Word.add h hdrSz)

def coalesceNext (s : Heap) (h : Nat) : Heap :=
  let n := nextOf s.memory h
  if n < s.heapEnd ∧ cfree s.memory n then
    let s := flRemove s n
    setSize s h (Word.add (csz s.memory h) (csz s.memory n)) true
  else s

def coalescePrev (s : Heap) (h : Nat) : Heap × Nat :=
  let pr := prevOf s h
  if pr ≠ 0 ∧ cfree s.memory pr then
    let s := flRemove s pr
    (setSize s pr (Word.add (csz s.memory pr) (csz s.memory h)) true, pr)
  else (s, h)

def myFree (s : Heap) (p : Nat) : Heap :=
  if p = 0 then s
  else
    let h := Word.sub p hdrSz
    let s := setSize s h (csz s.memory h) true
    let s := coalesceNext s h
    let (s, h) := coalescePrev s h
    flInsert s h

/-! A run: the heap, and the pointers that the client holds. -/

structure Client where
  heap : Heap
  live : List Nat

inductive Event where
  | malloc (req p : Nat)
  | free (p : Nat)
  | write (address : Nat) (value : UInt8)

def Payload (s : Heap) (p address : Nat) : Prop :=
  p ≤ address ∧ address < p + (csz s.memory (p - hdrSz) - hdrSz - ftrSz)

inductive Step : Client → Event → Client → Prop where
  | malloc {c : Client} {fuel req p : Nat} {heap : Heap} (request : req < 2 ^ 64)
      (returned : myMalloc fuel c.heap req = some (heap, p)) :
      Step c (.malloc req p) ⟨heap, if p = 0 then c.live else p :: c.live⟩
  | free {c : Client} {p : Nat} (held : p = 0 ∨ p ∈ c.live) :
      Step c (.free p) ⟨myFree c.heap p, c.live.erase p⟩
  | write {c : Client} {p address : Nat} {value : UInt8} (held : p ∈ c.live)
      (inside : Payload c.heap p address) :
      Step c (.write address value) { c with heap.memory := poke c.heap.memory address value }

def Started (cap mapped : Nat) (c : Client) : Prop :=
  0 < cap ∧ cap < 2 ^ 64 ∧ Region mapped (initCap cap) ∧
    ∃ memory, c = ⟨myInit memory mapped cap, []⟩

def system (cap mapped : Nat) : Transition.System Client Event := ⟨Started cap mapped, Step⟩

abbrev Run (cap mapped : Nat) : Client → Prop := Transition.Reachable (system cap mapped)

end LinuxMemory.Freelist
