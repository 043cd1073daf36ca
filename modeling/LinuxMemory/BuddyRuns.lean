import LinuxMemory.BuddyCalls

/-!
Whole runs of the buddy allocator, simulated by a ledger of used blocks: a call
is refused when no block of the order is clear of them, is granted any clear
block, and a free strikes a block out. What the free lists hold follows from the
ledger.
-/

namespace LinuxMemory.Buddy

open ByteMemory LinkedList AlignedBlocks Transition

def usedSet (used : List Block) : Set Block := {b | b ∈ used}

inductive LedgerStep (mapped : Nat) : List Block → Event → List Block → Prop where
  | refuse {used : List Block} {pages : Int} {order : Nat} (rounded : orderOf pages = some order)
      (full : ∀ b : Block, b.order = order → ¬ Clear 8 (usedSet used) b) :
      LedgerStep mapped used (.alloc pages 0) used
  | grant {used : List Block} {pages : Int} {b : Block} (rounded : orderOf pages = some b.order)
      (clear : Clear 8 (usedSet used) b) :
      LedgerStep mapped used (.alloc pages (addr mapped b)) (b :: used)
  | release {used : List Block} {pages : Int} {b : Block} (rounded : orderOf pages = some b.order)
      (held : b ∈ used) : LedgerStep mapped used (.free (addr mapped b) pages) (used.erase b)
  | write {used : List Block} {address : Nat} {value : UInt8} :
      LedgerStep mapped used (.write address value) used

def ledgerSystem (mapped : Nat) : System (List Block) Event :=
  ⟨fun used => used = [], LedgerStep mapped⟩

structure Related (mapped : Nat) (c : Client) (used : List Block) : Prop where
  base : c.arena.base = mapped
  holds : ∃ lists, Holds c.arena (usedSet used) lists
  distinct : used.Nodup
  live : c.live = used.map (handle mapped)

theorem usedSet_cons (b : Block) (used : List Block) : usedSet (b :: used) = insert b (usedSet used) := by
  ext d
  simp [usedSet]

theorem usedSet_erase (b : Block) (used : List Block) (distinct : used.Nodup) (held : b ∈ used) :
    usedSet used = insert b (usedSet (used.erase b)) ∧ b ∉ usedSet (used.erase b) := by
  refine ⟨?_, distinct.not_mem_erase⟩
  rw [← usedSet_cons]
  ext d
  exact (List.perm_cons_erase held).mem_iff

/-! The calls on an arena divided by a ledger. -/

section Calls
variable {s arena : Arena} {used : List Block} {lists : Lists} {pages : Int} {p order : Nat}

theorem holds_buddyAlloc (holds : Holds s (usedSet used) lists) (rounded : orderOf pages = some order)
    (returned : buddyAlloc s pages = some (arena, p)) :
    (allocLists order lists = none ∧ p = 0 ∧ arena = s ∧ ∀ b ∈ freeSet lists, b.order < order) ∨
    ∃ b lists', allocLists order lists = some (lists', b) ∧ b.order = order ∧
      addr s.base b = p ∧ b ∉ used ∧ Stable (usedSet used) s arena ∧
      Holds arena (usedSet (b :: used)) lists' := by
  have outcome : allocOrder s order = (arena, p) := by
    simpa [buddyAlloc, rounded] using returned
  rcases holds_allocOrder holds order with
    ⟨refused, short, none⟩ | ⟨b, lists', size, fresh, address, stable, holds', result⟩
  · obtain ⟨rfl, rfl⟩ := Prod.mk.inj (refused.symm.trans outcome)
    exact Or.inl ⟨none, rfl, rfl, short⟩
  · rw [outcome] at address stable holds'
    rw [← usedSet_cons] at holds'
    exact Or.inr ⟨b, lists', result, size, address.symm, fresh, stable, holds'⟩

theorem holds_buddyFree (holds : Holds s (usedSet used) lists) (distinct : used.Nodup) (b : Block)
    (held : b ∈ used) (fuel : Nat) (rounded : orderOf pages = some b.order)
    (returned : buddyFree fuel s (addr s.base b) pages = some arena) :
    Stable (usedSet (used.erase b)) s arena ∧
      Holds arena (usedSet (used.erase b)) (freeLists lists b) := by
  obtain ⟨split, fresh⟩ := usedSet_erase b used distinct held
  rw [split] at holds
  have outcome : freeOrder fuel s (addr s.base b) b.order = some arena := by
    simpa [buddyFree, rounded] using returned
  exact holds_freeOrder holds fresh fuel outcome

end Calls

section Steps
variable {mapped : Nat} {c : Client} {used : List Block}

theorem held_block (related : Related mapped c used) (p order : Nat) (held : (p, order) ∈ c.live) :
    ∃ b ∈ used, addr mapped b = p ∧ b.order = order := by
  rw [related.live] at held
  obtain ⟨b, member, same⟩ := List.mem_map.mp held
  obtain ⟨rfl, rfl⟩ := Prod.mk.inj same
  exact ⟨b, member, rfl, rfl⟩

theorem addr_not_null (related : Related mapped c used) (b : Block) : addr mapped b ≠ 0 := by
  obtain ⟨lists, holds⟩ := related.holds
  have valid := holds.rep.based.valid
  rw [related.base] at valid
  unfold addr
  omega

theorem related_alloc (related : Related mapped c used) (pages : Int) (p order : Nat) (arena : Arena)
    (rounded : orderOf pages = some order) (returned : buddyAlloc c.arena pages = some (arena, p)) :
    (p = 0 ∧ arena = c.arena ∧ ∀ b : Block, b.order = order → ¬ Clear 8 (usedSet used) b) ∨
    ∃ b, addr mapped b = p ∧ b.order = order ∧ Clear 8 (usedSet used) b ∧
      Related mapped ⟨arena, (p, order) :: c.live⟩ (b :: used) := by
  obtain ⟨base, ⟨lists, holds⟩, distinct, live⟩ := related
  rcases holds_buddyAlloc holds rounded returned with
    ⟨-, rfl, rfl, short⟩ | ⟨b, lists', -, rfl, address, fresh, stable, holds'⟩
  · refine Or.inl ⟨rfl, rfl, fun b size clear => ?_⟩
    -- a clear block lies in a free one, which is on a list that was searched
    obtain ⟨outer, isFree, inside⟩ := clear_inside_free holds.division _ b rfl clear
    have larger := inside.1
    have smaller := short outer isFree
    omega
  · rw [base] at address
    have clear : Clear 8 (usedSet used) b := by
      have division := holds'.division
      rw [usedSet_cons] at division
      exact used_clear division fresh
    refine Or.inr ⟨b, address, rfl, clear, stable.base.trans base, ⟨lists', holds'⟩,
      List.nodup_cons.mpr ⟨fresh, distinct⟩, ?_⟩
    rw [List.map_cons, handle, address, live]

theorem related_free (related : Related mapped c used) (b : Block) (held : b ∈ used) (fuel : Nat)
    (pages : Int) (arena : Arena) (rounded : orderOf pages = some b.order)
    (returned : buddyFree fuel c.arena (addr mapped b) pages = some arena) :
    Related mapped ⟨arena, c.live.erase (addr mapped b, b.order)⟩ (used.erase b) := by
  obtain ⟨base, ⟨lists, holds⟩, distinct, live⟩ := related
  obtain ⟨stable, holds'⟩ := holds_buddyFree holds distinct b held fuel rounded (base ▸ returned)
  refine ⟨stable.base.trans base, ⟨_, holds'⟩, distinct.erase b, ?_⟩
  rw [live, List.map_erase (handle_injective mapped)]
  rfl

theorem free_returns (related : Related mapped c used) (b : Block) (held : b ∈ used) (fuel : Nat)
    (enough : 256 < fuel) (pages : Int) (rounded : orderOf pages = some b.order) :
    ∃ arena, buddyFree fuel c.arena (addr mapped b) pages = some arena := by
  obtain ⟨base, ⟨lists, holds⟩, distinct, live⟩ := related
  obtain ⟨split, fresh⟩ := usedSet_erase b used distinct held
  rw [split] at holds
  obtain ⟨arena, returned⟩ := freeOrder_returns holds fresh fuel enough
  exact ⟨arena, by rw [buddyFree, rounded, ← base]; exact returned⟩

theorem related_write (related : Related mapped c used) (p order address : Nat) (value : UInt8)
    (held : (p, order) ∈ c.live) (inside : Inside p order address) :
    Related mapped { c with arena.memory := poke c.arena.memory address value } used := by
  obtain ⟨b, member, rfl, rfl⟩ := held_block related p order held
  obtain ⟨base, ⟨lists, holds⟩, distinct, live⟩ := related
  rw [← base] at inside
  exact ⟨base, ⟨lists, holds_write holds member address value inside⟩, distinct, live⟩

def startLists : Lists := put (fun _ => []) 8 [0]

theorem holds_started (memory : Memory) (success : Region mapped arenaBytes) :
    Holds (buddyInit memory mapped) (usedSet []) startLists := by
  obtain ⟨aligned, valid, _, below⟩ := success
  have unused : freeSet (fun _ => []) = ∅ := by
    ext b
    simp [freeSet]
  have whole : usedSet [root 8] = {root 8} := by
    ext b
    simp [usedSet]
  have blank : Rep ⟨memory, mapped, fun _ => 0⟩ (fun _ => []) :=
    ⟨⟨aligned, valid, below⟩, fun _ _ => rfl⟩
  -- before the push the whole arena counts as one used block
  have division : Division 8 (freeSet fun _ => []) (insert (root 8) (usedSet [])) := by
    rw [← usedSet_cons, whole, unused]
    exact ⟨by simpa using partition_root 8, by simp, by intro b isFree; exact absurd isFree id⟩
  have address : addr mapped (root 8) = mapped := by simp [addr, root]
  have pushed := rep_flPush blank _ division (root 8) (Nat.le_refl _) (by simp [unused])
  rw [address] at pushed
  refine ⟨pushed, ?_⟩
  have released := division_release division (by simp [usedSet]) (by simp [unused])
  rw [← freeSet_cons] at released
  exact released

theorem related_started (c : Client) (started : Started mapped c) : Related mapped c [] := by
  obtain ⟨success, memory, rfl⟩ := started
  exact ⟨rfl, ⟨_, holds_started memory success⟩, List.nodup_nil, rfl⟩

end Steps

theorem buddy_simulation (mapped : Nat) :
    Simulation (system mapped) (ledgerSystem mapped) (Related mapped) := by
  constructor
  · intro c started
    exact ⟨[], rfl, related_started c started⟩
  · intro before used event after related next
    cases next with
    | @alloc pages p order arena _ rounded returned =>
        rcases related_alloc related pages p order arena rounded returned with
          ⟨rfl, rfl, full⟩ | ⟨b, rfl, rfl, clear, related'⟩
        · exact ⟨used, .refuse rounded full, related⟩
        · refine ⟨b :: used, .grant rounded clear, ?_⟩
          rw [if_neg (addr_not_null related b)]
          exact related'
    | @free fuel p order pages arena held rounded returned =>
        obtain ⟨b, member, rfl, rfl⟩ := held_block related p order held
        exact ⟨used.erase b, .release rounded member,
          related_free related b member fuel pages arena rounded returned⟩
    | write held inside => exact ⟨used, .write, related_write related _ _ _ _ held inside⟩

theorem run_related (mapped : Nat) (c : Client) (run : Run mapped c) :
    ∃ used, Related mapped c used := by
  obtain ⟨used, -, related⟩ := simulation_reachable (buddy_simulation mapped) c run
  exact ⟨used, related⟩

end LinuxMemory.Buddy
