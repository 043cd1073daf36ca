import LinuxMemory.Word
import LinuxMemory.ByteMemory
import LinuxMemory.LinkedList
import LinuxMemory.Transition

/-!
The buddy allocator of `14_putting_it_together/05_buddy.c`. Pointers are
addresses and `NULL` is 0; `next` and `order` of a `Block` are the word at offset
0 and the `int` at offset 8. `none` stands for what C leaves undefined, a signed
overflow or an index outside `fl`, and for a list walk that outlasts its fuel.
-/

namespace LinuxMemory.Buddy

open ByteMemory

def pgLog2 : Nat := 12

def maxOrder : Nat := 8

def totalPages : Nat := 1 <<< maxOrder

def arenaBytes : Nat := totalPages <<< pgLog2

structure Arena where
  memory : Memory
  base : Nat
  fl : Nat → Nat

def next (memory : Memory) (b : Nat) : Nat := loadWord memory b

/-- `b->order = o`. The field is written only. -/
def setOrder (s : Arena) (b o : Nat) : Arena := { s with memory := store s.memory 4 (b + 8) o }

def setHead (s : Arena) (o b : Nat) : Arena :=
  { s with fl := fun other => if other = o then b else s.fl other }

def flPush (s : Arena) (o b : Nat) : Arena :=
  let s := setOrder s b o
  let s := { s with memory := storeWord s.memory b (s.fl o) }
  setHead s o b

def flPop (s : Arena) (o : Nat) : Arena × Nat :=
  let b := s.fl o
  (if b ≠ 0 then setHead s o (next s.memory b) else s, b)

/-- What a `Block **` of `fl_remove` points at: a list head or a `next` field. -/
inductive Slot where
  | head (o : Nat)
  | link (b : Nat)

def readSlot (s : Arena) : Slot → Nat
  | .head o => s.fl o
  | .link b => next s.memory b

def writeSlot (s : Arena) (slot : Slot) (b : Nat) : Arena :=
  match slot with
  | .head o => setHead s o b
  | .link a => { s with memory := storeWord s.memory a b }

def flRemoveFrom (s : Arena) (target : Nat) : Nat → Slot → Option (Arena × Bool)
  | 0, _ => none
  | fuel + 1, p =>
      let b := readSlot s p
      if b = 0 then some (s, false)
      else if b = target then some (writeSlot s p (next s.memory b), true)
      else flRemoveFrom s target fuel (.link b)

def flRemove (fuel : Nat) (s : Arena) (o target : Nat) : Option (Arena × Bool) :=
  flRemoveFrom s target fuel (.head o)

/-- `buddy_init` on the region that `mmap` returned, over whatever the memory
held; `fl` is zeroed static storage. -/
def buddyInit (memory : Memory) (mapped : Nat) : Arena :=
  flPush ⟨memory, mapped, fun _ => 0⟩ maxOrder mapped

/-- `while (sz < pages) { sz <<= 1; order++; }` on 32-bit `int`s, from `sz` and
`order` on. The fuel bounds the doublings. -/
def orderFrom (pages : Int) : Nat → Int → Nat → Option Nat
  | 0, _, _ => none
  | fuel + 1, sz, order =>
      if sz < pages then
        -- the shift overflows when it would set the sign bit
        if sz * 2 < 2 ^ 31 then orderFrom pages fuel (sz * 2) (order + 1) else none
      else some order

def orderOf (pages : Int) : Option Nat := orderFrom pages 32 1 0

/-- `while (o <= MAX_ORDER && !fl[o]) o++`, with `rounds` orders left to try. -/
def searchUp (fl : Nat → Nat) : Nat → Nat → Nat
  | 0, o => o
  | rounds + 1, o => if fl o = 0 then searchUp fl rounds (o + 1) else o

/-- `while (o > order)`: pushes the upper half of `b` on the list below, until
`b` has the order asked for. -/
def splitDown (order b : Nat) : Nat → Arena → Arena
  | 0, s => s
  | o + 1, s =>
      if o + 1 > order then
        let half := (1 <<< o) <<< pgLog2
        splitDown order b o (flPush s o (Word.add b half))
      else s

def allocOrder (s : Arena) (order : Nat) : Arena × Nat :=
  if order > maxOrder then (s, 0)
  else
    let o := searchUp s.fl (maxOrder + 1 - order) order
    if o > maxOrder then (s, 0)
    else
      let (s, b) := flPop s o
      (setOrder (splitDown order b o s) b order, b)

def buddyAlloc (s : Arena) (pages : Int) : Option (Arena × Nat) :=
  (orderOf pages).map (allocOrder s)

def buddyOf (s : Arena) (p order : Nat) : Nat :=
  let off := Word.sub p s.base
  let bsz := (1 <<< order) <<< pgLog2
  Word.add s.base (off ^^^ bsz)

/-- The merge loop, with `rounds` orders left below `MAX_ORDER`: the block that
results and its order. -/
def mergeUp (fuel : Nat) : Nat → Arena → Nat → Nat → Option (Arena × Nat × Nat)
  | 0, s, p, order => some (s, p, order)
  | rounds + 1, s, p, order => do
      let buddy := buddyOf s p order
      let (s, found) ← flRemove fuel s order buddy
      if found then mergeUp fuel rounds s (if buddy < p then buddy else p) (order + 1)
      else some (s, p, order)

def freeOrder (fuel : Nat) (s : Arena) (p order : Nat) : Option Arena :=
  if order > maxOrder then none
  else (mergeUp fuel (maxOrder - order) s p order).map fun (s, p, order) => flPush s order p

def buddyFree (fuel : Nat) (s : Arena) (p : Nat) (pages : Int) : Option Arena :=
  (orderOf pages).bind (freeOrder fuel s p)

/-! A run: the arena, and the blocks that the client holds with their orders. -/

structure Client where
  arena : Arena
  live : List (Nat × Nat)

inductive Event where
  | alloc (pages : Int) (p : Nat)
  | free (p : Nat) (pages : Int)
  | write (address : Nat) (value : UInt8)

def blockSize (order : Nat) : Nat := (1 <<< order) <<< pgLog2

def Inside (p order address : Nat) : Prop := p ≤ address ∧ address < p + blockSize order

inductive Step : Client → Event → Client → Prop where
  | alloc {c : Client} {pages : Int} {p order : Nat} {arena : Arena}
      (request : -2 ^ 31 ≤ pages ∧ pages ≤ 256) (rounded : orderOf pages = some order)
      (returned : buddyAlloc c.arena pages = some (arena, p)) :
      Step c (.alloc pages p) ⟨arena, if p = 0 then c.live else (p, order) :: c.live⟩
  | free {c : Client} {fuel p order : Nat} {pages : Int} {arena : Arena}
      (held : (p, order) ∈ c.live) (rounded : orderOf pages = some order)
      (returned : buddyFree fuel c.arena p pages = some arena) :
      Step c (.free p pages) ⟨arena, c.live.erase (p, order)⟩
  | write {c : Client} {p order address : Nat} {value : UInt8} (held : (p, order) ∈ c.live)
      (inside : Inside p order address) :
      Step c (.write address value) { c with arena.memory := poke c.arena.memory address value }

def Started (mapped : Nat) (c : Client) : Prop :=
  Region mapped arenaBytes ∧ ∃ memory, c = ⟨buddyInit memory mapped, []⟩

def system (mapped : Nat) : Transition.System Client Event := ⟨Started mapped, Step⟩

abbrev Run (mapped : Nat) : Client → Prop := Transition.Reachable (system mapped)

end LinuxMemory.Buddy
