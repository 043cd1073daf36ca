import LinuxMemory.Word
import LinuxMemory.ByteMemory
import LinuxMemory.LinkedList
import LinuxMemory.Ownership
import LinuxMemory.Recycling
import LinuxMemory.Transition

/-!
The fixed-size pool of `14_putting_it_together/02_pool.c`. A free slot holds the
link to the next free one in its first word, over whatever its client left
there; a live slot belongs to its client entirely. Links are read and written at
any address, as on x86_64.
-/

namespace LinuxMemory.ObjectPool

open ByteMemory LinkedList Ownership Recycling Transition

def nodeSz : Nat := 8

structure Pool where
  memory : Memory
  base : Nat
  objSz : Nat
  cap : Nat
  freeHead : Nat

def next (memory : Memory) (node : Nat) : Nat := loadWord memory node

def linkNode (p : Pool) (node : Nat) : Pool :=
  { p with memory := storeWord p.memory node p.freeHead, freeHead := node }

def threadSlots (p : Pool) : Nat → Pool
  | 0 => p
  | i + 1 => linkNode (threadSlots p i) (Word.add p.base (Word.mul i p.objSz))

/-- `pool_init` on what `mmap` returned, `none` for `MAP_FAILED`; the memory is
whatever was there before. -/
def poolInit (memory : Memory) (mapped : Option Nat) (objSz n : Nat) : Option Pool :=
  let objSz := if objSz < nodeSz then nodeSz else objSz
  mapped.map fun base => threadSlots ⟨memory, base, objSz, n, 0⟩ n

def initLength (objSz n : Nat) : Nat := Word.mul (if objSz < nodeSz then nodeSz else objSz) n

def poolAlloc (p : Pool) : Pool × Nat :=
  if p.freeHead = 0 then (p, 0)
  else ({ p with freeHead := next p.memory p.freeHead }, p.freeHead)

def poolFree (p : Pool) (q : Nat) : Pool := linkNode p q

/-! A run: the pool, the live pointers, and the turns that the slots took. -/

structure Client where
  pool : Pool
  live : List Nat
  history : List (Turn Nat)

inductive Event where
  | alloc (q : Nat)
  | free (q : Nat)
  | write (address : Nat) (value : UInt8)

def slotBlock (p : Pool) (q : Nat) : Block := (q, p.objSz)

inductive Step : Client → Event → Client → Prop where
  | refuse {c : Client} {pool : Pool} (returned : poolAlloc c.pool = (pool, 0)) :
      Step c (.alloc 0) { c with pool := pool }
  | grant {c : Client} {pool : Pool} {q : Nat} (returned : poolAlloc c.pool = (pool, q))
      (valid : q ≠ 0) : Step c (.alloc q) ⟨pool, q :: c.live, .taken q :: c.history⟩
  | free {c : Client} {q : Nat} (held : q ∈ c.live) :
      Step c (.free q) ⟨poolFree c.pool q, c.live.erase q, .given q :: c.history⟩
  | write {c : Client} {q address : Nat} {value : UInt8} (held : q ∈ c.live)
      (inside : Inside (slotBlock c.pool q) address) :
      Step c (.write address value) { c with pool.memory := poke c.pool.memory address value }

/-- The state after a successful `pool_init(obj_sz, n)`. The length does not wrap. -/
def Started (objSz n mapped : Nat) (c : Client) : Prop :=
  max objSz nodeSz * n < 2 ^ 64 ∧ Region mapped (initLength objSz n) ∧
    (∃ memory, poolInit memory (some mapped) objSz n = some c.pool) ∧ c.live = [] ∧ c.history = []

def system (objSz n mapped : Nat) : System Client Event := ⟨Started objSz n mapped, Step⟩

abbrev Run (objSz n mapped : Nat) : Client → Prop := Reachable (system objSz n mapped)

/-! The slots. -/

def slot (p : Pool) (i : Nat) : Nat := p.base + i * p.objSz

def slots (p : Pool) : List Nat := (List.range p.cap).map (slot p)

/-- What `pool_init` establishes and no call changes. -/
structure Fit (p : Pool) : Prop where
  valid : 0 < p.base
  room : 8 ≤ p.objSz
  below : p.base + p.cap * p.objSz < 2 ^ 64

section Slots
variable {p : Pool}

theorem mem_slots (q : Nat) : q ∈ slots p ↔ ∃ i < p.cap, slot p i = q := by
  simp [slots]

theorem slot_bounds (i : Nat) (inside : i < p.cap) :
    p.base ≤ slot p i ∧ slot p i + p.objSz ≤ p.base + p.cap * p.objSz := by
  have top : (i + 1) * p.objSz ≤ p.cap * p.objSz := Nat.mul_le_mul_right _ inside
  rw [Nat.succ_mul] at top
  unfold slot
  omega

theorem slot_address (fit : Fit p) (i : Nat) (inside : i < p.cap) :
    Word.add p.base (Word.mul i p.objSz) = slot p i := by
  have bounds := slot_bounds i inside
  have below := fit.below
  have room := fit.room
  unfold slot at *
  rw [Word.mul_exact _ _ (by omega), Word.add_exact _ _ (by omega)]

theorem slot_lt (p : Pool) (i j : Nat) (less : i < j) : slot p i + p.objSz ≤ slot p j := by
  have step : (i + 1) * p.objSz ≤ j * p.objSz := Nat.mul_le_mul_right _ less
  rw [Nat.succ_mul] at step
  unfold slot
  omega

theorem slots_apart (q r : Nat) (inside : q ∈ slots p) (other : r ∈ slots p)
    (different : q ≠ r) : Separate (slotBlock p q) (slotBlock p r) := by
  obtain ⟨i, -, rfl⟩ := (mem_slots q).mp inside
  obtain ⟨j, -, rfl⟩ := (mem_slots r).mp other
  rcases Nat.lt_trichotomy i j with less | rfl | more
  · exact Or.inl (slot_lt p i j less)
  · exact absurd rfl different
  · exact Or.inr (slot_lt p j i more)

theorem slot_room (fit : Fit p) (q : Nat) (inside : q ∈ slots p) :
    0 < q ∧ q + p.objSz < 2 ^ 64 := by
  obtain ⟨i, less, rfl⟩ := (mem_slots q).mp inside
  have bounds := slot_bounds i less
  have valid := fit.valid
  have below := fit.below
  omega

theorem slots_falling (fit : Fit p) : (slots p).reverse.Pairwise (· > ·) := by
  rw [List.pairwise_reverse, slots, List.pairwise_map]
  refine List.pairwise_lt_range.imp (fun less => ?_)
  have step := slot_lt p _ _ less
  have room := fit.room
  omega

theorem slots_nodup (fit : Fit p) : (slots p).reverse.Nodup :=
  (slots_falling fit).imp (fun more => Nat.ne_of_gt more)

end Slots

/-! Links of a slot after a write elsewhere. -/

section Links
variable {p : Pool}

theorem next_linkNode_self (memory : Memory) (node value : Nat) (bounded : value < 2 ^ 64) :
    next (storeWord memory node value) node = value :=
  (load_store_same memory 8 node value).trans (Nat.mod_eq_of_lt bounded)

theorem next_linkNode_apart (fit : Fit p) (q r value : Nat)
    (apart : Separate (slotBlock p q) (slotBlock p r)) :
    next (storeWord p.memory q value) r = next p.memory r := by
  have room := fit.room
  apply load_store_apart
  unfold Apart
  simp only [Separate, slotBlock] at apart
  omega

theorem next_poke_apart (fit : Fit p) (q r address : Nat) (value : UInt8)
    (apart : Separate (slotBlock p q) (slotBlock p r)) (inside : Inside (slotBlock p q) address) :
    next (poke p.memory address value) r = next p.memory r := by
  have room := fit.room
  apply load_poke
  simp only [Separate, Inside, slotBlock] at apart inside
  omega

theorem linked_linkNode (fit : Fit p) (node : Nat) (nodes : List Nat)
    (linked : Linked 0 (next p.memory) p.freeHead nodes) (inside : node ∈ slots p)
    (members : ∀ other ∈ nodes, other ∈ slots p) (fresh : node ∉ nodes)
    (bounded : p.freeHead < 2 ^ 64) :
    Linked 0 (next (linkNode p node).memory) (linkNode p node).freeHead (node :: nodes) := by
  have valid := (slot_room fit node inside).1
  apply linked_push p.freeHead node nodes linked (by omega)
  · exact next_linkNode_self p.memory node p.freeHead bounded
  · intro other member
    have different : node ≠ other := fun same => fresh (same ▸ member)
    exact next_linkNode_apart fit node other _
      (slots_apart node other inside (members other member) different)

end Links

/-! The pool follows a ledger of its slots, the highest one first. -/

structure Related (objSz n mapped : Nat) (c : Client) (ledger : Ledger Nat) : Prop where
  fit : Fit c.pool
  base : c.pool.base = mapped
  size : c.pool.objSz = max objSz nodeSz
  cap : c.pool.cap = n
  live : c.live = ledger.live
  history : c.history = ledger.history
  linked : Linked 0 (next c.pool.memory) c.pool.freeHead ledger.available
  balanced : Balanced (slots c.pool).reverse ledger

theorem freeHead_lt (p : Pool) (nodes : List Nat) (fit : Fit p)
    (linked : Linked 0 (next p.memory) p.freeHead nodes) (members : ∀ node ∈ nodes, node ∈ slots p) :
    p.freeHead < 2 ^ 64 := by
  rcases linked_head p.freeHead nodes linked with null | first
  · rw [null]
    decide
  · have room := slot_room fit p.freeHead (members _ first)
    omega

theorem threadSlots_fields (p : Pool) (i : Nat) :
    (threadSlots p i).base = p.base ∧ (threadSlots p i).objSz = p.objSz ∧
      (threadSlots p i).cap = p.cap := by
  induction i with
  | zero => exact ⟨rfl, rfl, rfl⟩
  | succ i ih => exact ih

/-- After `i` iterations the first `i` slots are on the list, the last one in
front. -/
theorem linked_threadSlots (p : Pool) (fit : Fit p) (empty : p.freeHead = 0) (i : Nat)
    (inside : i ≤ p.cap) :
    Linked 0 (next (threadSlots p i).memory) (threadSlots p i).freeHead
      ((List.range i).map (slot p)).reverse := by
  induction i with
  | zero => exact empty
  | succ i ih =>
      have linked := ih (Nat.le_of_succ_le inside)
      obtain ⟨base, size, cap⟩ := threadSlots_fields p i
      -- the loop moves only the links and the head, so the slots are the same
      have same : slots (threadSlots p i) = slots p := by
        unfold slots slot
        rw [base, size, cap]
      have fit' : Fit (threadSlots p i) :=
        ⟨base ▸ fit.valid, size ▸ fit.room, by rw [base, size, cap]; exact fit.below⟩
      have members : ∀ node ∈ ((List.range i).map (slot p)).reverse,
          node ∈ slots (threadSlots p i) := by
        intro node member
        simp only [List.mem_reverse, List.mem_map, List.mem_range] at member
        obtain ⟨j, less, rfl⟩ := member
        rw [same]
        exact (mem_slots _).mpr ⟨j, by omega, rfl⟩
      -- the slots of earlier rounds lie below this one
      have fresh : slot p i ∉ ((List.range i).map (slot p)).reverse := by
        intro member
        simp only [List.mem_reverse, List.mem_map, List.mem_range] at member
        obtain ⟨j, less, equal⟩ := member
        have step := slot_lt p j i less
        have room := fit.room
        omega
      have current : slot p i ∈ slots (threadSlots p i) := by
        rw [same]
        exact (mem_slots _).mpr ⟨i, inside, rfl⟩
      have pushed := linked_linkNode fit' (slot p i) _ linked current members fresh
        (freeHead_lt _ _ fit' linked members)
      rw [List.range_succ, List.map_append, List.reverse_append]
      simp only [threadSlots, slot_address fit i inside]
      exact pushed

section Steps
variable {objSz n mapped : Nat} {c : Client} {ledger : Ledger Nat}

theorem related_started (started : Started objSz n mapped c) :
    Related objSz n mapped c ⟨[], (slots c.pool).reverse, []⟩ := by
  obtain ⟨whole, ⟨aligned, valid, nonempty, below⟩, ⟨memory, init⟩, live, history⟩ := started
  have size : (if objSz < nodeSz then nodeSz else objSz) = max objSz nodeSz := by
    split <;> omega
  -- the region that was mapped is as long as all slots together
  have length : initLength objSz n = max objSz nodeSz * n := by
    rw [initLength, size, Word.mul_exact _ _ whole]
  have shape : c.pool = threadSlots ⟨memory, mapped, max objSz nodeSz, n, 0⟩ n := by
    rw [← size]
    exact (Option.some.inj init).symm
  have fit : Fit ⟨memory, mapped, max objSz nodeSz, n, 0⟩ := by
    refine ⟨valid, Nat.le_max_right _ _, ?_⟩
    rw [length, Nat.mul_comm] at below
    exact below
  obtain ⟨base, objSize, cap⟩ := threadSlots_fields ⟨memory, mapped, max objSz nodeSz, n, 0⟩ n
  rw [← shape] at base objSize cap
  have linked := linked_threadSlots _ fit rfl n (Nat.le_refl n)
  rw [← shape] at linked
  refine ⟨⟨base ▸ fit.valid, objSize ▸ fit.room, ?_⟩, base, objSize, cap, live, history, ?_,
    balanced_start _⟩
  · rw [base, objSize, cap]
    exact fit.below
  · unfold slots
    have same : slot c.pool = slot ⟨memory, mapped, max objSz nodeSz, n, 0⟩ := by
      funext i
      simp only [slot, base, objSize]
    rw [cap, same]
    exact linked

theorem related_slots (related : Related objSz n mapped c ledger) (q : Nat) :
    q ∈ slots c.pool ↔ q ∈ c.live ∨ q ∈ ledger.available := by
  have member := related.balanced.shares.mem_iff (a := q)
  rw [List.mem_append, List.mem_reverse, ← related.live] at member
  exact member.symm

theorem related_apart (related : Related objSz n mapped c ledger) :
    c.live.Nodup ∧ ledger.available.Nodup ∧ ∀ q ∈ c.live, q ∉ ledger.available := by
  have distinct := balanced_nodup related.balanced (slots_nodup related.fit)
  rw [← related.live] at distinct
  obtain ⟨left, right, apart⟩ := List.nodup_append.mp distinct
  exact ⟨left, right, fun q live available => apart q live q available rfl⟩

theorem poolAlloc_cases (related : Related objSz n mapped c ledger) :
    (ledger.available = [] ∧ poolAlloc c.pool = (c.pool, 0)) ∨
    ∃ q rest, ledger.available = q :: rest ∧ q ≠ 0 ∧
      poolAlloc c.pool = ({ c.pool with freeHead := next c.pool.memory q }, q) ∧
      Linked 0 (next c.pool.memory) (next c.pool.memory q) rest := by
  have linked := related.linked
  cases shape : ledger.available with
  | nil =>
      rw [shape] at linked
      have null : c.pool.freeHead = 0 := linked
      exact Or.inl ⟨rfl, by simp [poolAlloc, null]⟩
  | cons q rest =>
      rw [shape] at linked
      obtain ⟨head, valid, tail⟩ := linked
      refine Or.inr ⟨q, rest, rfl, valid, ?_, tail⟩
      simp [poolAlloc, head, valid]

theorem related_take (related : Related objSz n mapped c ledger) (q : Nat) (rest : List Nat)
    (first : ledger.available = q :: rest)
    (tail : Linked 0 (next c.pool.memory) (next c.pool.memory q) rest) :
    Related objSz n mapped
      ⟨{ c.pool with freeHead := next c.pool.memory q }, q :: c.live, .taken q :: c.history⟩
      (ledger.take q) := by
  obtain ⟨fit, base, size, cap, live, history, -, balanced⟩ := related
  -- what the link is does not matter, and unification is not to evaluate it
  generalize next c.pool.memory q = head at tail ⊢
  have linked : Linked 0 (next c.pool.memory) head (ledger.take q).available := by
    simpa [Ledger.take, first] using tail
  exact ⟨⟨fit.valid, fit.room, fit.below⟩, base, size, cap, congrArg (q :: ·) live,
    congrArg (.taken q :: ·) history, linked,
    balanced_take balanced (slots_nodup fit) q rest first⟩

theorem related_free (related : Related objSz n mapped c ledger) (q : Nat) (held : q ∈ c.live) :
    Related objSz n mapped ⟨poolFree c.pool q, c.live.erase q, .given q :: c.history⟩
      (ledger.give q) := by
  have members : ∀ node ∈ ledger.available, node ∈ slots c.pool :=
    fun node member => (related_slots related node).mpr (Or.inr member)
  have inside := (related_slots related q).mpr (Or.inl held)
  have fresh := (related_apart related).2.2 q held
  obtain ⟨fit, base, size, cap, live, history, linked, balanced⟩ := related
  have bounded := freeHead_lt c.pool _ fit linked members
  exact ⟨⟨fit.valid, fit.room, fit.below⟩, base, size, cap, congrArg (·.erase q) live,
    congrArg (.given q :: ·) history, linked_linkNode fit q _ linked inside members fresh bounded,
    balanced_give balanced q (live ▸ held)⟩

theorem related_write (related : Related objSz n mapped c ledger) (q address : Nat) (value : UInt8)
    (held : q ∈ c.live) (inside : Inside (slotBlock c.pool q) address) :
    Related objSz n mapped { c with pool.memory := poke c.pool.memory address value } ledger := by
  have slot := (related_slots related q).mpr (Or.inl held)
  have apart := (related_apart related).2.2 q held
  have members : ∀ node ∈ ledger.available, node ∈ slots c.pool :=
    fun node member => (related_slots related node).mpr (Or.inr member)
  obtain ⟨fit, base, size, cap, live, history, linked, balanced⟩ := related
  refine ⟨⟨fit.valid, fit.room, fit.below⟩, base, size, cap, live, history, ?_, balanced⟩
  apply linked_congr c.pool.freeHead _ linked
  intro node member
  have different : q ≠ node := fun same => apart (same ▸ member)
  exact next_poke_apart fit q node address value (slots_apart q node slot (members node member)
    different) inside

end Steps

inductive LedgerStep : Ledger Nat → Event → Ledger Nat → Prop where
  | refuse {ledger : Ledger Nat} (none : ledger.available = []) : LedgerStep ledger (.alloc 0) ledger
  | grant {ledger : Ledger Nat} {q : Nat} {rest : List Nat} (first : ledger.available = q :: rest) :
      LedgerStep ledger (.alloc q) (ledger.take q)
  | free {ledger : Ledger Nat} {q : Nat} (held : q ∈ ledger.live) :
      LedgerStep ledger (.free q) (ledger.give q)
  | write {ledger : Ledger Nat} {address : Nat} {value : UInt8} :
      LedgerStep ledger (.write address value) ledger

def ledgerSystem (objSz n mapped : Nat) : System (Ledger Nat) Event :=
  ⟨fun ledger => ledger =
    ⟨[], ((List.range n).map fun i => mapped + i * max objSz nodeSz).reverse, []⟩, LedgerStep⟩

theorem pool_simulation (objSz n mapped : Nat) :
    Simulation (system objSz n mapped) (ledgerSystem objSz n mapped) (Related objSz n mapped) := by
  constructor
  · intro c started
    have related := related_started started
    refine ⟨_, ?_, related⟩
    show Ledger.mk _ _ _ = _
    simp only [slots, related.cap]
    congr 3
    funext i
    simp only [slot, related.base, related.size]
  · intro before ledger event after related next
    cases next with
    | refuse returned =>
        rcases poolAlloc_cases related with ⟨none, call⟩ | ⟨q, rest, -, valid, call, -⟩
        · obtain ⟨rfl, -⟩ := Prod.mk.inj (call.symm.trans returned)
          exact ⟨ledger, .refuse none, related⟩
        · exact absurd (Prod.mk.inj (call.symm.trans returned)).2 valid
    | grant returned valid =>
        rcases poolAlloc_cases related with ⟨none, call⟩ | ⟨q, rest, first, -, call, tail⟩
        · exact absurd (Prod.mk.inj (call.symm.trans returned)).2.symm valid
        · obtain ⟨rfl, rfl⟩ := Prod.mk.inj (call.symm.trans returned)
          exact ⟨_, .grant first, related_take related q rest first tail⟩
    | free held => exact ⟨_, .free (related.live ▸ held), related_free related _ held⟩
    | write held inside => exact ⟨ledger, .write, related_write related _ _ _ held inside⟩

/-! What every run guarantees. -/

/-- The slot a call has to return: the one freed last among those not handed out
again or, without such a slot, the highest one never handed out. -/
def Chosen (c : Client) (q : Nat) : Prop :=
  lastGiven c.history [] = some q ∨ lastGiven c.history [] = none ∧
    q ∈ slots c.pool ∧ Unused c.history q ∧
    ∀ other ∈ slots c.pool, Unused c.history other → other ≤ q

structure Safe (objSz n mapped : Nat) (c : Client) : Prop where
  shape : c.pool.base = mapped ∧ c.pool.objSz = max objSz nodeSz ∧ c.pool.cap = n
  listed : ∃ nodes, Linked 0 (next c.pool.memory) c.pool.freeHead nodes ∧ nodes.Nodup ∧
    ∀ q, q ∈ nodes ↔ q ∈ slots c.pool ∧ q ∉ c.live
  distinct : c.live.Nodup ∧ ∀ q ∈ c.live, q ∈ slots c.pool
  refused : (poolAlloc c.pool).2 = 0 ↔ ∀ q ∈ slots c.pool, q ∈ c.live
  unchanged : (poolAlloc c.pool).2 = 0 → (poolAlloc c.pool).1 = c.pool
  granted : (poolAlloc c.pool).2 ≠ 0 → Chosen c (poolAlloc c.pool).2
  allocFrame : Untouched c.pool.memory (poolAlloc c.pool).1.memory (c.live.map (slotBlock c.pool))
  freeFrame : ∀ q ∈ c.live, Untouched c.pool.memory (poolFree c.pool q).memory
    ((c.live.erase q).map (slotBlock c.pool))

section Guarantees
variable {objSz n mapped : Nat} {c : Client} {ledger : Ledger Nat}

theorem related_chosen (related : Related objSz n mapped c ledger) (q : Nat) (rest : List Nat)
    (first : ledger.available = q :: rest) : Chosen c q := by
  unfold Chosen
  rw [related.history]
  rcases balanced_next related.balanced q rest first with recent | ⟨none, head⟩
  · exact Or.inl recent
  · have highest := highest_unused _ _ q (slots_falling related.fit) head
    simp only [List.mem_reverse] at highest
    exact Or.inr ⟨none, highest⟩

theorem poolFree_untouched (related : Related objSz n mapped c ledger) (q : Nat)
    (held : q ∈ c.live) : Untouched c.pool.memory (poolFree c.pool q).memory
      ((c.live.erase q).map (slotBlock c.pool)) := by
  intro block member address inside
  obtain ⟨r, other, rfl⟩ := List.mem_map.mp member
  have distinct := (related_apart related).1
  obtain ⟨different, live⟩ := (List.Nodup.mem_erase_iff distinct).mp other
  have apart := slots_apart r q ((related_slots related r).mpr (Or.inl live))
    ((related_slots related q).mpr (Or.inl held)) different
  have room := related.fit.room
  apply store_outside
  simp only [Separate, Inside, slotBlock] at apart inside
  omega

theorem related_safe (related : Related objSz n mapped c ledger) : Safe objSz n mapped c := by
  obtain ⟨distinct, availableDistinct, apart⟩ := related_apart related
  have members := related_slots related
  have exactly : ∀ q, q ∈ ledger.available ↔ q ∈ slots c.pool ∧ q ∉ c.live := by
    intro q
    constructor
    · intro available
      exact ⟨(members q).mpr (Or.inr available), fun live => apart q live available⟩
    · rintro ⟨slot, idle⟩
      exact ((members q).mp slot).resolve_left idle
  have shape := And.intro related.base (And.intro related.size related.cap)
  have listed : ∃ nodes, Linked 0 (next c.pool.memory) c.pool.freeHead nodes ∧ nodes.Nodup ∧
      ∀ q, q ∈ nodes ↔ q ∈ slots c.pool ∧ q ∉ c.live :=
    ⟨ledger.available, related.linked, availableDistinct, exactly⟩
  have placed : ∀ q ∈ c.live, q ∈ slots c.pool := fun q live => (members q).mpr (Or.inl live)
  have frame := fun q held => poolFree_untouched related q held
  rcases poolAlloc_cases related with ⟨none, call⟩ | ⟨q, rest, first, valid, call, -⟩
  · have full : ∀ q ∈ slots c.pool, q ∈ c.live := by
      intro q slot
      have unavailable : q ∉ ledger.available := by simp [none]
      exact ((members q).mp slot).resolve_right unavailable
    refine ⟨shape, listed, ⟨distinct, placed⟩, ?_, ?_, ?_, ?_, frame⟩ <;> rw [call]
    · exact iff_of_true rfl full
    · exact fun _ => rfl
    · exact fun granted => absurd rfl granted
    · exact untouched_refl _ _
  · have waiting : ¬ ∀ q ∈ slots c.pool, q ∈ c.live := by
      intro full
      have available : q ∈ ledger.available := by simp [first]
      obtain ⟨slot, idle⟩ := (exactly q).mp available
      exact idle (full q slot)
    refine ⟨shape, listed, ⟨distinct, placed⟩, ?_, ?_, ?_, ?_, frame⟩ <;> rw [call]
    · exact iff_of_false valid waiting
    · exact fun null => absurd null valid
    · exact fun _ => related_chosen related q rest first
    · exact untouched_refl _ _

end Guarantees

theorem pool_invariant (objSz n mapped : Nat) (c : Client) (run : Run objSz n mapped c) :
    Safe objSz n mapped c := by
  obtain ⟨ledger, -, related⟩ := simulation_reachable (pool_simulation objSz n mapped) c run
  exact related_safe related

theorem pool_invariant_reuse : ∃ c : Client,
    c.history = [.given 0x7f0000000018, .taken 0x7f0000000018] ∧ Safe 24 2 0x7f0000000000 c := by
  have region : Region 0x7f0000000000 (initLength 24 2) :=
    ⟨by decide, by decide, by decide, by decide⟩
  have start : Started 24 2 0x7f0000000000
      ⟨threadSlots ⟨fun _ => 0, 0x7f0000000000, 24, 2, 0⟩ 2, [], []⟩ :=
    ⟨by decide, region, ⟨fun _ => 0, rfl⟩, rfl, rfl⟩
  have first : (poolAlloc (threadSlots ⟨fun _ => 0, 0x7f0000000000, 24, 2, 0⟩ 2)).2 =
      0x7f0000000018 := by decide +kernel
  have call : poolAlloc (threadSlots ⟨fun _ => 0, 0x7f0000000000, 24, 2, 0⟩ 2) = (_, 0x7f0000000018) :=
    Prod.ext rfl first
  exact ⟨_, rfl, pool_invariant 24 2 0x7f0000000000 _
    (.step (.step (.start start) (.grant call (by decide))) (.free List.mem_cons_self))⟩

end LinuxMemory.ObjectPool
