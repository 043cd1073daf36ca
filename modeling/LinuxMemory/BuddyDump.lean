import LinuxMemory.BuddyGuarantees

/-!
`dump` of the buddy allocator, which counts the blocks on each free list. In every run
the pages that it accounts for and those of the live blocks are all pages of the arena.
-/

namespace LinuxMemory.Buddy

open ByteMemory LinkedList AlignedBlocks Transition

/-- `for (Block *b = fl[o]; b; b = b->next) n++`, from `b` on. -/
def countFrom (memory : Memory) : Nat → Nat → Option Nat
  | 0, _ => none
  | fuel + 1, b => if b = 0 then some 0 else (countFrom memory fuel (next memory b)).map (· + 1)

def dumpText (counts : List Nat) : String :=
  "free lists:" ++
    String.join (counts.zipIdx.map fun (n, o) => "  order=" ++ toString o ++ ":" ++ toString n) ++ "\n"

def dump (fuel : Nat) (s : Arena) : Option String :=
  ((List.range (maxOrder + 1)).mapM fun o => countFrom s.memory fuel (s.fl o)).map dumpText

def livePages (c : Client) : Nat := (c.live.map fun x => 2 ^ x.2).sum

theorem countFrom_linked (memory : Memory) (fuel head : Nat) (nodes : List Nat)
    (linked : Linked 0 (next memory) head nodes) (enough : nodes.length < fuel) :
    countFrom memory fuel head = some nodes.length := by
  induction nodes generalizing fuel head with
  | nil =>
      obtain ⟨fuel, rfl⟩ := Nat.exists_eq_succ_of_ne_zero (Nat.ne_of_gt enough)
      exact if_pos linked
  | cons node rest ih =>
      obtain ⟨fuel, rfl⟩ := Nat.exists_eq_succ_of_ne_zero (Nat.ne_of_gt (Nat.zero_lt_of_lt enough))
      obtain ⟨rfl, valid, later⟩ := linked
      rw [countFrom, if_neg valid, ih fuel _ later (Nat.lt_of_succ_lt_succ enough)]
      rfl

theorem mapM_all {α β : Type} (f : α → Option β) (g : α → β) (items : List α)
    (each : ∀ a ∈ items, f a = some (g a)) : items.mapM f = some (items.map g) := by
  induction items with
  | nil => rfl
  | cons a items ih =>
      rw [List.forall_mem_cons] at each
      rw [List.mapM_cons, each.1, ih each.2]
      rfl

theorem sum_lists (lists : Nat → List Nat) (orders : List Nat) :
    ((orders.flatMap fun o => (lists o).map (Block.mk o)).map fun b => 2 ^ b.order).sum =
      (orders.map fun o => (lists o).length * 2 ^ o).sum := by
  induction orders with
  | nil => rfl
  | cons o orders ih =>
      have list : ((lists o).map (Block.mk o)).map (fun b => 2 ^ b.order) =
          List.replicate (lists o).length (2 ^ o) := by
        rw [List.map_map]
        exact List.map_const' (l := lists o) (b := 2 ^ o)
      rw [List.flatMap_cons, List.map_append, List.sum_append, ih, list, List.sum_replicate_nat,
        List.map_cons, List.sum_cons]

/-- `dump` ends in every run. The blocks that it counts are those on the lists; they and
the live ones share no byte, and together they have the pages of the arena. -/
theorem dump_accounts (mapped : Nat) (c : Client) (run : Run mapped c) :
    (∀ fuel > totalPages, dump fuel c.arena =
      some (dumpText ((List.range 9).map fun o => (blocksOn c.arena o).length))) ∧
    ((List.range 9).map fun o => (blocksOn c.arena o).length * 2 ^ o).sum + livePages c = totalPages ∧
    (allBlocks c).Pairwise Disjoint := by
  obtain ⟨used, related⟩ := run_related mapped c run
  obtain ⟨lists, holds⟩ := related.holds
  have lengths : ∀ o ∈ List.range 9, (blocksOn c.arena o).length = (lists o).length := by
    intro o member
    rw [blocksOn_eq holds o (Nat.le_of_lt_succ (List.mem_range.mp member)), List.length_map]
  refine ⟨?_, ?_, (related_invariant related).disjoint⟩
  · intro fuel enough
    have counts := mapM_all (fun o => countFrom c.arena.memory fuel (c.arena.fl o))
      (fun o => (blocksOn c.arena o).length) (List.range 9) (by
        intro o member
        have small : o ≤ 8 := Nat.le_of_lt_succ (List.mem_range.mp member)
        have length := lists_length holds o small
        have total : totalPages = 256 := by decide
        have counted := countFrom_linked c.arena.memory fuel _ _ (holds.rep.links o small)
          (by rw [List.length_map]; omega)
        rw [List.length_map] at counted
        rw [counted, lengths o member])
    rw [dump]
    exact congrArg (Option.map dumpText) counts
  · have same : ({b | b ∈ ledger used lists} : Set Block) = freeSet lists ∪ usedSet used := by
      ext b
      exact mem_ledger holds b
    have pages := partition_pages 8 (ledger used lists) (ledger_nodup holds related.distinct)
      (by rw [same]; exact holds.division.partition)
    have live : livePages c = (used.map fun b => 2 ^ b.order).sum := by
      rw [livePages, related.live, List.map_map]
      rfl
    have weights := List.map_congr_left fun o member => congrArg (· * 2 ^ o) (lengths o member)
    rw [ledger, List.map_append, List.sum_append, sum_lists, ← live] at pages
    rw [weights, Nat.add_comm]
    exact pages

/-- After `buddy_alloc(3)`. -/
theorem dump_accounts_granted : ∃ arena, buddyAlloc fresh.arena 3 = some (arena, 4096) ∧
    dump 257 arena = some (dumpText ((List.range 9).map fun o => (blocksOn arena o).length)) ∧
    ((List.range 9).map fun o => (blocksOn arena o).length * 2 ^ o).sum + 4 = 256 := by
  obtain ⟨arena, returned⟩ := fresh_alloc
  have granted : Run 4096 ⟨arena, [(4096, 2)]⟩ :=
    .step fresh_run (.alloc (by decide) (by decide) returned)
  obtain ⟨printed, pages, _⟩ := dump_accounts 4096 _ granted
  exact ⟨arena, returned, printed 257 (by decide), pages⟩

end LinuxMemory.Buddy
