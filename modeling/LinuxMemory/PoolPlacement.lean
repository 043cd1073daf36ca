import LinuxMemory.ObjectPool

/-!
Where the slots of the pool in `02_pool.c` lie. `pool_init` maps `obj_sz * n`
bytes, a product that may wrap, and threads all `n` slots; the stride is raised
to `sizeof(Node)` but not rounded to a multiple of it.
-/

namespace LinuxMemory.ObjectPool

open ByteMemory LinkedList Ownership Recycling Transition

/-! The slots and the mapping. -/

def pageLength (length : Nat) : Nat := (length + 4095) / 4096 * 4096

def slotBytes (p : Pool) (i : Nat) : Block := (Word.add p.base (Word.mul i p.objSz), p.objSz)

/-- The slots share the region, and threading them wrote nowhere else. -/
structure Placed (before : Memory) (region : Block) (p : Pool) : Prop where
  inside : ∀ i < p.cap, Within (slotBytes p i) region
  apart : ∀ i < p.cap, ∀ j < p.cap, i ≠ j → Separate (slotBytes p i) (slotBytes p j)
  confined : ∀ address, ¬ Inside region address → p.memory address = before address

theorem le_pageLength (length : Nat) : length ≤ pageLength length := by
  unfold pageLength
  omega

theorem initLength_eq (objSz n : Nat) : initLength objSz n = Word.mul (max objSz nodeSz) n := by
  unfold initLength
  congr 1
  split <;> omega

section Threading
variable {p : Pool}

theorem slotBytes_eq (fit : Fit p) (i : Nat) (inside : i < p.cap) :
    slotBytes p i = slotBlock p (slot p i) := by
  unfold slotBytes slotBlock
  rw [slot_address fit i inside]

theorem threadSlots_confined (fit : Fit p) (i : Nat) (inside : i ≤ p.cap) (address : Nat)
    (outside : address < p.base ∨ p.base + p.cap * p.objSz ≤ address) :
    (threadSlots p i).memory address = p.memory address := by
  induction i with
  | zero => rfl
  | succ i ih =>
      obtain ⟨low, high⟩ := slot_bounds (p := p) i inside
      have room := fit.room
      rw [threadSlots, slot_address fit i inside, linkNode]
      refine Eq.trans (store_outside _ 8 (slot p i) _ address ?_) (ih (Nat.le_of_succ_le inside))
      omega

end Threading

section Placement
variable {memory : Memory} {mapped objSz n : Nat}

def unthreaded (memory : Memory) (mapped objSz n : Nat) : Pool :=
  ⟨memory, mapped, max objSz nodeSz, n, 0⟩

theorem poolInit_eq : poolInit memory (some mapped) objSz n =
    some (threadSlots (unthreaded memory mapped objSz n) n) := by
  have raised : (if objSz < nodeSz then nodeSz else objSz) = max objSz nodeSz := by
    split <;> omega
  rw [poolInit, raised]
  rfl

theorem threaded_fields (memory : Memory) (mapped objSz n : Nat) :
    (threadSlots (unthreaded memory mapped objSz n) n).base = mapped ∧
    (threadSlots (unthreaded memory mapped objSz n) n).objSz = max objSz nodeSz ∧
    (threadSlots (unthreaded memory mapped objSz n) n).cap = n :=
  threadSlots_fields (unthreaded memory mapped objSz n) n

theorem unthreaded_fit (success : Region mapped (pageLength (initLength objSz n)))
    (exact : max objSz nodeSz * n < 2 ^ 64) : Fit (unthreaded memory mapped objSz n) := by
  have length := le_pageLength (initLength objSz n)
  rw [initLength_eq, Word.mul_exact _ _ exact] at length success
  have below := success.below
  refine ⟨success.valid, Nat.le_max_right _ _, ?_⟩
  show mapped + n * max objSz nodeSz < 2 ^ 64
  rw [Nat.mul_comm]
  omega

theorem placed_exact (success : Region mapped (pageLength (initLength objSz n)))
    (exact : max objSz nodeSz * n < 2 ^ 64) :
    Placed memory (mapped, pageLength (initLength objSz n))
      (threadSlots (unthreaded memory mapped objSz n) n) := by
  have fit : Fit (unthreaded memory mapped objSz n) := unthreaded_fit success exact
  have length := le_pageLength (initLength objSz n)
  rw [initLength_eq, Word.mul_exact _ _ exact] at length ⊢
  obtain ⟨base, size, cap⟩ := threaded_fields memory mapped objSz n
  have whole : n * max objSz nodeSz ≤ pageLength (max objSz nodeSz * n) := by
    rw [Nat.mul_comm]
    exact length
  have bytes : ∀ i < n, slotBytes (threadSlots (unthreaded memory mapped objSz n) n) i =
      slotBlock (unthreaded memory mapped objSz n) (slot (unthreaded memory mapped objSz n) i) := by
    intro i below
    rw [← slotBytes_eq fit i below]
    unfold slotBytes
    rw [base, size]
    rfl
  constructor
  · rw [cap]
    intro i below
    rw [bytes i below]
    obtain ⟨low, high⟩ := slot_bounds (p := unthreaded memory mapped objSz n) i below
    exact ⟨low, Nat.le_trans high (Nat.add_le_add_left whole mapped)⟩
  · rw [cap]
    intro i below j below' different
    rw [bytes i below, bytes j below']
    rcases Nat.lt_or_gt_of_ne different with less | more
    · exact Or.inl (slot_lt _ i j less)
    · exact Or.inr (slot_lt _ j i more)
  · intro address outside
    apply threadSlots_confined fit n (Nat.le_refl n) address
    unfold Inside at outside
    show address < mapped ∨ mapped + n * max objSz nodeSz ≤ address
    omega

/-- A product that wraps leaves a slot that ends behind the region. -/
theorem placed_wrapped (success : Region mapped (pageLength (initLength objSz n)))
    (wraps : 2 ^ 64 ≤ max objSz nodeSz * n) :
    ¬ Placed memory (mapped, pageLength (initLength objSz n))
      (threadSlots (unthreaded memory mapped objSz n) n) := by
  intro placed
  obtain ⟨base, size, cap⟩ := threaded_fields memory mapped objSz n
  have below := success.below
  generalize pageLength (initLength objSz n) = region at below placed
  have positive : 0 < max objSz nodeSz := Nat.lt_of_lt_of_le (by decide) (Nat.le_max_right _ _)
  -- the first slot that the region does not hold entirely
  have first : region / max objSz nodeSz < n := by
    rw [Nat.div_lt_iff_lt_mul positive, Nat.mul_comm]
    omega
  have start : region / max objSz nodeSz * max objSz nodeSz ≤ region := Nat.div_mul_le_self _ _
  have finish : region < (region / max objSz nodeSz + 1) * max objSz nodeSz := by
    rw [Nat.mul_comm]
    exact Nat.lt_mul_div_succ region positive
  rw [← cap] at first
  obtain ⟨-, ends⟩ := placed.inside _ first
  unfold slotBytes at ends
  rw [base, size] at ends
  rw [Word.mul_exact _ _ (by omega), Word.add_exact _ _ (by omega)] at ends
  rw [Nat.succ_mul] at finish
  omega

end Placement

/-- The slots of a successful `pool_init` lie apart inside the mapping exactly if
`obj_sz * n`, with the size raised, does not wrap. -/
theorem pool_placed_iff (memory : Memory) (mapped objSz n : Nat) (pool : Pool)
    (success : Region mapped (pageLength (initLength objSz n)))
    (returned : poolInit memory (some mapped) objSz n = some pool) :
    Placed memory (mapped, pageLength (initLength objSz n)) pool ↔
      max objSz nodeSz * n < 2 ^ 64 := by
  rw [poolInit_eq] at returned
  obtain rfl := Option.some.inj returned
  constructor
  · intro placed
    by_contra wraps
    exact placed_wrapped success (Nat.le_of_not_lt wraps) placed
  · exact placed_exact success

theorem pool_placed_main : ∃ pool, poolInit (fun _ => 0) (some 0x7f0000000000) 32 1024 = some pool ∧
    Placed (fun _ => 0) (0x7f0000000000, pageLength (initLength 32 1024)) pool :=
  ⟨_, rfl, (pool_placed_iff (fun _ => 0) 0x7f0000000000 32 1024 _
    ⟨by decide, by decide, by decide, by decide⟩ rfl).mpr (by decide)⟩

/-- `pool_init(&p, 2 ^ 32, 2 ^ 32 + 1)` maps `2 ^ 32` bytes, one slot. -/
theorem pool_outgrows_mapping :
    ∃ pool, poolInit (fun _ => 0) (some 0x7f0000000000) (2 ^ 32) (2 ^ 32 + 1) = some pool ∧
      Region 0x7f0000000000 (pageLength (initLength (2 ^ 32) (2 ^ 32 + 1))) ∧
      ¬ Placed (fun _ => 0) (0x7f0000000000, pageLength (initLength (2 ^ 32) (2 ^ 32 + 1))) pool := by
  have success : Region 0x7f0000000000 (pageLength (initLength (2 ^ 32) (2 ^ 32 + 1))) :=
    ⟨by decide, by decide, by decide, by decide⟩
  exact ⟨_, poolInit_eq, success, placed_wrapped success (by decide)⟩

/-! The nodes. Each function again, beside the addresses at which it reads or
writes a `next` field. -/

def threadNodes (p : Pool) : Nat → Pool × List Nat
  | 0 => (p, [])
  | i + 1 =>
      let (q, nodes) := threadNodes p i
      let node := Word.add p.base (Word.mul i p.objSz)
      (linkNode q node, node :: nodes)

def poolAllocNodes (p : Pool) : (Pool × Nat) × List Nat :=
  if p.freeHead = 0 then ((p, 0), [])
  else (({ p with freeHead := next p.memory p.freeHead }, p.freeHead), [p.freeHead])

def poolFreeNodes (p : Pool) (q : Nat) : Pool × List Nat := (linkNode p q, [q])

theorem threadNodes_pool (p : Pool) (i : Nat) : (threadNodes p i).1 = threadSlots p i := by
  induction i with
  | zero => rfl
  | succ i ih =>
      rw [threadSlots, ← ih]
      rfl

theorem poolAllocNodes_result (p : Pool) : (poolAllocNodes p).1 = poolAlloc p := by
  unfold poolAllocNodes poolAlloc
  split <;> rfl

theorem poolFreeNodes_pool (p : Pool) (q : Nat) : (poolFreeNodes p q).1 = poolFree p q := rfl

theorem mem_threadNodes (p : Pool) (i node : Nat) :
    node ∈ (threadNodes p i).2 ↔ ∃ j < i, Word.add p.base (Word.mul j p.objSz) = node := by
  induction i with
  | zero => simp [threadNodes]
  | succ i ih =>
      simp only [threadNodes, List.mem_cons, ih]
      constructor
      · rintro (rfl | ⟨j, less, same⟩)
        · exact ⟨i, Nat.lt_succ_self i, rfl⟩
        · exact ⟨j, Nat.lt_succ_of_lt less, same⟩
      · rintro ⟨j, less, same⟩
        rcases Nat.eq_or_lt_of_le (Nat.le_of_lt_succ less) with rfl | earlier
        · exact Or.inl same.symm
        · exact Or.inr ⟨j, earlier, same⟩

def Aligned (address : Nat) : Prop := address % 8 = 0

/-- What the next calls return and touch. -/
structure CallsAligned (c : Client) : Prop where
  returned : (poolAlloc c.pool).2 ≠ 0 → Aligned (poolAlloc c.pool).2
  alloc : ∀ node ∈ (poolAllocNodes c.pool).2, Aligned node
  free : ∀ q ∈ c.live, ∀ node ∈ (poolFreeNodes c.pool q).2, Aligned node

structure NodesAligned (objSz n mapped : Nat) : Prop where
  init : ∀ memory, ∀ node ∈ (threadNodes (unthreaded memory mapped objSz n) n).2, Aligned node
  calls : ∀ c, Run objSz n mapped c → CallsAligned c

section Alignment
variable {objSz n mapped : Nat} {c : Client}

theorem slot_aligned (page : mapped % 4096 = 0) (stride : n ≤ 1 ∨ max objSz nodeSz % 8 = 0) (i : Nat)
    (inside : i < n) : Aligned (mapped + i * max objSz nodeSz) := by
  unfold Aligned
  rcases stride with single | whole
  · obtain rfl : i = 0 := by omega
    omega
  · have offset : i * max objSz nodeSz % 8 = 0 := by rw [Nat.mul_mod, whole, Nat.mul_zero]
    omega

theorem run_slots (run : Run objSz n mapped c) (q : Nat) (inside : q ∈ slots c.pool) :
    ∃ i < n, mapped + i * max objSz nodeSz = q := by
  obtain ⟨ledger, -, related⟩ := simulation_reachable (pool_simulation objSz n mapped) c run
  obtain ⟨i, below, rfl⟩ := (mem_slots q).mp inside
  unfold slot
  rw [related.base, related.size]
  exact ⟨i, related.cap ▸ below, rfl⟩

theorem run_nodes (run : Run objSz n mapped c) :
    (c.pool.freeHead ≠ 0 → c.pool.freeHead ∈ slots c.pool) ∧ ∀ q ∈ c.live, q ∈ slots c.pool := by
  obtain ⟨ledger, -, related⟩ := simulation_reachable (pool_simulation objSz n mapped) c run
  have members := related_slots related
  constructor
  · intro valid
    rcases linked_head _ _ related.linked with isNull | first
    · exact absurd isNull valid
    · exact (members _).mpr (Or.inr first)
  · exact fun q held => (members q).mpr (Or.inl held)

theorem run_aligned (page : mapped % 4096 = 0) (stride : n ≤ 1 ∨ max objSz nodeSz % 8 = 0)
    (run : Run objSz n mapped c) : CallsAligned c := by
  obtain ⟨head, live⟩ := run_nodes run
  have aligned : ∀ q ∈ slots c.pool, Aligned q := by
    intro q inside
    obtain ⟨i, below, rfl⟩ := run_slots run q inside
    exact slot_aligned page stride i below
  constructor
  · intro valid
    unfold poolAlloc at valid ⊢
    split at valid
    · exact absurd rfl valid
    · next nonempty =>
        rw [if_neg nonempty]
        exact aligned _ (head nonempty)
  · intro node touched
    unfold poolAllocNodes at touched
    split at touched
    · cases touched
    · next nonempty =>
        rw [List.mem_singleton.mp touched]
        exact aligned _ (head nonempty)
  · intro q held node touched
    rw [List.mem_singleton.mp touched]
    exact aligned q (live q held)

end Alignment

/-- Every pointer that the pool returns, links or follows is aligned exactly if
there is one slot only or the stride, `obj_sz` raised to 8, is a multiple of 8. -/
theorem pool_aligned_iff (objSz n mapped : Nat) (exact : max objSz nodeSz * n < 2 ^ 64)
    (success : Region mapped (initLength objSz n)) :
    NodesAligned objSz n mapped ↔ n ≤ 1 ∨ max objSz nodeSz % 8 = 0 := by
  have page := success.aligned
  have below := success.below
  rw [initLength_eq, Word.mul_exact _ _ exact] at below
  -- the addresses of the loop do not wrap
  have address : ∀ i < n, Word.add mapped (Word.mul i (max objSz nodeSz)) =
      mapped + i * max objSz nodeSz := by
    intro i less
    have offset : i * max objSz nodeSz ≤ n * max objSz nodeSz := Nat.mul_le_mul_right _ (Nat.le_of_lt less)
    rw [Nat.mul_comm n] at offset
    rw [Word.mul_exact _ _ (by omega), Word.add_exact _ _ (by omega)]
  constructor
  · intro aligned
    by_contra neither
    have second : 1 < n := by omega
    have node := aligned.init (fun _ => 0) _ ((mem_threadNodes _ n _).mpr ⟨1, second, rfl⟩)
    simp only [unthreaded] at node
    rw [address 1 second, Nat.one_mul] at node
    unfold Aligned at node
    omega
  · intro stride
    constructor
    · intro memory node touched
      obtain ⟨i, less, rfl⟩ := (mem_threadNodes _ n node).mp touched
      simp only [unthreaded]
      rw [address i less]
      exact slot_aligned page stride i less
    · exact fun c run => run_aligned page stride run

theorem pool_aligned_main : NodesAligned 32 1024 0x7f0000000000 :=
  (pool_aligned_iff 32 1024 0x7f0000000000 (by decide)
    ⟨by decide, by decide, by decide, by decide⟩).mpr (by decide)

/-- `pool_init(&p, 12, 2)` links a slot at `base + 12`. -/
theorem pool_misaligned : max 12 nodeSz * 2 < 2 ^ 64 ∧
    Region 0x7f0000000000 (initLength 12 2) ∧ ¬ NodesAligned 12 2 0x7f0000000000 := by
  refine ⟨by decide, ⟨by decide, by decide, by decide, by decide⟩, fun aligned => ?_⟩
  have second := aligned.init (fun _ => 0) 0x7f000000000c (by decide)
  exact absurd second (by unfold Aligned; decide)

end LinuxMemory.ObjectPool
