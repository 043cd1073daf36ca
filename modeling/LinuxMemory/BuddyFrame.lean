import LinuxMemory.BuddyGuarantees
import LinuxMemory.Ownership

/-!
The bytes of a live block are its client's. The `next` and `order` fields that
the allocator writes lie in the first pages of free blocks and of the block that
is handed out or returned; where they point is read off the lists, which the
bytes of live blocks are no part of.
-/

namespace LinuxMemory.Buddy

open ByteMemory AlignedBlocks Transition
open Ownership hiding Block Inside

/-! A run: the arena, and what the clients hold with the values they have written. -/

structure Owner where
  arena : Arena
  held : Holdings

inductive OwnerStep : Owner → Event → Owner → Prop where
  | alloc {o : Owner} {pages : Int} {p order : Nat} {arena : Arena}
      (request : -2 ^ 31 ≤ pages ∧ pages ≤ 256) (rounded : orderOf pages = some order)
      (returned : buddyAlloc o.arena pages = some (arena, p)) :
      OwnerStep o (.alloc pages p) ⟨arena, if p = 0 then o.held else o.held.take (p, blockSize order)⟩
  | free {o : Owner} {fuel p order : Nat} {pages : Int} {arena : Arena}
      (held : (p, blockSize order) ∈ o.held.blocks) (rounded : orderOf pages = some order)
      (returned : buddyFree fuel o.arena p pages = some arena) :
      OwnerStep o (.free p pages) ⟨arena, o.held.drop (p, blockSize order)⟩
  | write {o : Owner} {p order address : Nat} {value : UInt8}
      (held : (p, blockSize order) ∈ o.held.blocks) (inside : Inside p order address) :
      OwnerStep o (.write address value)
        ⟨{ o.arena with memory := poke o.arena.memory address value }, o.held.write address value⟩

def ownerSystem (mapped : Nat) : System Owner Event :=
  ⟨fun o => Started mapped ⟨o.arena, []⟩ ∧ o.held = Holdings.nothing, OwnerStep⟩

inductive Request where
  | alloc (pages : Int)
  | free (p : Nat) (pages : Int)

def request : Event → Option Request
  | .alloc pages _ => some (.alloc pages)
  | .free p pages => some (.free p pages)
  | .write _ _ => none

def extent (mapped : Nat) (b : Block) : Nat × Nat := (addr mapped b, blockSize b.order)

structure Owned (mapped : Nat) (o : Owner) (used : List Block) (lists : Lists) : Prop where
  base : o.arena.base = mapped
  holds : Holds o.arena (usedSet used) lists
  distinct : used.Nodup
  blocks : o.held.blocks = used.map (extent mapped)

theorem blockSize_injective (o o' : Nat) (same : blockSize o = blockSize o') : o = o' := by
  unfold blockSize at same
  rw [size_eq, size_eq] at same
  have exponents := Nat.pow_right_injective (Nat.le_refl 2) same
  exact Nat.add_right_cancel exponents

theorem extent_injective (mapped : Nat) : Function.Injective (extent mapped) := by
  intro b d same
  obtain ⟨address, size⟩ := Prod.mk.inj same
  exact handle_injective mapped (Prod.ext address (blockSize_injective _ _ size))

section Owned
variable {mapped : Nat} {o : Owner} {used : List Block} {lists : Lists}

theorem owned_block (owned : Owned mapped o used lists) (p order : Nat)
    (held : (p, blockSize order) ∈ o.held.blocks) :
    ∃ b ∈ used, addr mapped b = p ∧ b.order = order := by
  rw [owned.blocks] at held
  obtain ⟨b, member, same⟩ := List.mem_map.mp held
  obtain ⟨address, size⟩ := Prod.mk.inj same
  exact ⟨b, member, address, blockSize_injective _ _ size⟩

theorem untouched_stable (s s' : Arena) (stable : Stable (usedSet used) s s') (base : s.base = mapped) :
    Untouched s.memory s'.memory (used.map (extent mapped)) := by
  intro block member address inside
  obtain ⟨b, isUsed, rfl⟩ := List.mem_map.mp member
  subst base
  exact stable.bytes b isUsed address inside

theorem owned_started (started : Started mapped ⟨o.arena, []⟩) (none : o.held = Holdings.nothing) :
    Owned mapped o [] startLists := by
  obtain ⟨success, memory, same⟩ := started
  have arena : o.arena = buddyInit memory mapped := congrArg Client.arena same
  refine ⟨?_, ?_, List.nodup_nil, ?_⟩
  · rw [arena]
    rfl
  · rw [arena]
    exact holds_started memory success
  · rw [none]
    rfl

theorem owned_alloc (owned : Owned mapped o used lists) (pages : Int) (p order : Nat) (arena : Arena)
    (rounded : orderOf pages = some order) (returned : buddyAlloc o.arena pages = some (arena, p)) :
    (allocLists order lists = none ∧ p = 0 ∧ arena = o.arena) ∨
    ∃ lists' b, allocLists order lists = some (lists', b) ∧ addr mapped b = p ∧ p ≠ 0 ∧
      Owned mapped ⟨arena, o.held.take (p, blockSize order)⟩ (b :: used) lists' ∧
      Untouched o.arena.memory arena.memory o.held.blocks := by
  have valid := owned.holds.rep.based.valid
  rcases holds_buddyAlloc owned.holds rounded returned with
    ⟨none, rfl, rfl, -⟩ | ⟨b, lists', result, rfl, address, fresh, stable, holds⟩
  · exact Or.inl ⟨none, rfl, rfl⟩
  · rw [owned.base] at address valid
    refine Or.inr ⟨lists', b, result, address, ?_, ⟨stable.base.trans owned.base, holds, ?_, ?_⟩, ?_⟩
    · rw [← address]
      unfold addr
      omega
    · exact List.nodup_cons.mpr ⟨fresh, owned.distinct⟩
    · rw [Holdings.take, owned.blocks, ← address]
      rfl
    · rw [owned.blocks]
      exact untouched_stable o.arena arena stable owned.base

theorem owned_free (owned : Owned mapped o used lists) (fuel p order : Nat) (pages : Int)
    (arena : Arena) (held : (p, blockSize order) ∈ o.held.blocks)
    (rounded : orderOf pages = some order)
    (returned : buddyFree fuel o.arena p pages = some arena) :
    ∃ b, addr mapped b = p ∧ b.order = order ∧
      Owned mapped ⟨arena, o.held.drop (p, blockSize order)⟩ (used.erase b) (freeLists lists b) ∧
      Untouched o.arena.memory arena.memory (o.held.drop (p, blockSize order)).blocks := by
  obtain ⟨b, member, rfl, rfl⟩ := owned_block owned p order held
  obtain ⟨base, holds, distinct, blocks⟩ := owned
  obtain ⟨stable, holds'⟩ := holds_buddyFree holds distinct b member fuel rounded (base ▸ returned)
  have left : (o.held.drop (addr mapped b, blockSize b.order)).blocks =
      (used.erase b).map (extent mapped) := by
    rw [List.map_erase (extent_injective mapped), ← blocks]
    rfl
  refine ⟨b, rfl, rfl, ⟨stable.base.trans base, holds', distinct.erase b, left⟩, ?_⟩
  rw [left]
  exact untouched_stable o.arena arena stable base

theorem owned_write (owned : Owned mapped o used lists) (p order address : Nat) (value : UInt8)
    (held : (p, blockSize order) ∈ o.held.blocks) (inside : Inside p order address) :
    Owned mapped ⟨{ o.arena with memory := poke o.arena.memory address value },
      o.held.write address value⟩ used lists := by
  obtain ⟨b, member, rfl, rfl⟩ := owned_block owned p order held
  have base := owned.base
  rw [← base] at inside
  exact ⟨base, holds_write owned.holds member address value inside, owned.distinct, owned.blocks⟩

end Owned

theorem owner_owned (mapped : Nat) (o : Owner) (run : Reachable (ownerSystem mapped) o) :
    (∃ used lists, Owned mapped o used lists) ∧ Kept o.arena.memory o.held := by
  refine reachable_kept (ownerSystem mapped) (·.arena.memory) (·.held)
    (fun o => ∃ used lists, Owned mapped o used lists) ?_ ?_ o run
  · rintro first ⟨started, none⟩
    exact ⟨⟨_, _, owned_started started none⟩, none⟩
  · rintro before event after ⟨used, lists, owned⟩ next
    cases next with
    | @alloc pages p order arena _ rounded returned =>
        rcases owned_alloc owned pages p order arena rounded returned with
          ⟨-, rfl, rfl⟩ | ⟨lists', b, -, -, valid, owned', same⟩
        · exact ⟨⟨used, lists, owned⟩, .call (untouched_refl _ _)⟩
        · rw [if_neg valid]
          exact ⟨⟨_, _, owned'⟩, .take same⟩
    | @free fuel p order pages arena held rounded returned =>
        obtain ⟨b, -, -, owned', same⟩ := owned_free owned fuel p order pages arena held rounded returned
        exact ⟨⟨_, _, owned'⟩, .drop same⟩
    | @write p order address value held inside =>
        exact ⟨⟨_, _, owned_write owned p order address value held inside⟩, .write⟩

theorem lists_lockstep (mapped : Nat) : Lockstep (ownerSystem mapped) request fun left right =>
    ∃ used lists, Owned mapped left used lists ∧ Owned mapped right used lists := by
  constructor
  · rintro left right ⟨used, lists, owned, owned'⟩
    exact ⟨used, lists, owned', owned⟩
  · rintro left right event after ⟨used, lists, owned, owned'⟩ quiet next
    cases next with
    | alloc _ _ _ => cases quiet
    | free _ _ _ => cases quiet
    | write held inside => exact ⟨used, lists, owned_write owned _ _ _ _ held inside, owned'⟩
  · rintro left right event event' after after' ⟨used, lists, owned, owned'⟩ same asked next next'
    cases next with
    | @alloc pages p order arena _ rounded returned =>
        cases next' with
        | @alloc pages' p' order' arena' _ rounded' returned' =>
            obtain rfl : pages = pages' := by simpa [request] using same
            obtain rfl : order = order' := Option.some.inj (rounded.symm.trans rounded')
            rcases owned_alloc owned pages p order arena rounded returned with
              ⟨none, rfl, rfl⟩ | ⟨lists', b, some, rfl, valid, next, -⟩
            · rcases owned_alloc owned' pages p' order arena' rounded' returned' with
                ⟨-, rfl, rfl⟩ | ⟨lists', b, some, -⟩
              · exact ⟨rfl, used, lists, owned, owned'⟩
              · rw [none] at some
                cases some
            · rcases owned_alloc owned' pages p' order arena' rounded' returned' with
                ⟨none, -⟩ | ⟨lists'', b', some', rfl, valid', next', -⟩
              · rw [some] at none
                cases none
              · rw [some] at some'
                obtain ⟨rfl, rfl⟩ := Prod.mk.inj (Option.some.inj some')
                rw [if_neg valid, if_neg valid]
                exact ⟨rfl, _, _, next, next'⟩
        | free _ _ _ => cases same
        | write _ _ => cases same
    | @free fuel p order pages arena held rounded returned =>
        cases next' with
        | @free fuel' p' order' pages' arena' held' rounded' returned' =>
            obtain ⟨rfl, rfl⟩ : p = p' ∧ pages = pages' := by simpa [request] using same
            obtain rfl : order = order' := Option.some.inj (rounded.symm.trans rounded')
            obtain ⟨b, address, size, next, -⟩ :=
              owned_free owned fuel p order pages arena held rounded returned
            obtain ⟨b', address', size', next', -⟩ :=
              owned_free owned' fuel' p order pages arena' held' rounded' returned'
            -- address and order are the client's, and name the same block in both runs
            have twin : b = b' := handle_injective mapped
              (Prod.ext (address.trans address'.symm) (size.trans size'.symm))
            exact ⟨rfl, _, _, next, twin ▸ next'⟩
        | alloc _ _ _ => cases same
        | write _ _ => cases same
    | write _ _ => cases asked

/-- A byte that was written in a live block keeps its value until the block is
freed or the byte is written again, no call touches a live block other than the
one it frees, and the pointers returned depend on the calls alone. -/
theorem blocks_kept (mapped : Nat) :
    (∀ o, Reachable (ownerSystem mapped) o → Kept o.arena.memory o.held ∧
      (∀ pages p arena, -2 ^ 31 ≤ pages ∧ pages ≤ 256 →
        buddyAlloc o.arena pages = some (arena, p) →
        Untouched o.arena.memory arena.memory o.held.blocks) ∧
      ∀ fuel p order pages arena, (p, blockSize order) ∈ o.held.blocks →
        orderOf pages = some order → buddyFree fuel o.arena p pages = some arena →
        Untouched o.arena.memory arena.memory (o.held.drop (p, blockSize order)).blocks) ∧
    ∀ first first' last last' events events', (ownerSystem mapped).start first →
      (ownerSystem mapped).start first' → Path (ownerSystem mapped) first events last →
      Path (ownerSystem mapped) first' events' last' →
      events.filterMap request = events'.filterMap request →
      events.filter (fun event => (request event).isSome) =
        events'.filter (fun event => (request event).isSome) := by
  constructor
  · intro o run
    obtain ⟨⟨used, lists, owned⟩, kept⟩ := owner_owned mapped o run
    refine ⟨kept, ?_, ?_⟩
    · intro pages p arena small returned
      obtain ⟨order, -, rounded⟩ := orderOf_small pages small.2
      rcases owned_alloc owned pages p order arena rounded returned with
        ⟨-, -, rfl⟩ | ⟨lists', b, -, -, -, -, same⟩
      · exact untouched_refl _ _
      · exact same
    · intro fuel p order pages arena held rounded returned
      obtain ⟨b, -, -, -, same⟩ := owned_free owned fuel p order pages arena held rounded returned
      exact same
  · intro first first' last last' events events' started started' path path' same
    have twins : ∃ used lists, Owned mapped first used lists ∧ Owned mapped first' used lists :=
      ⟨_, _, owned_started started.1 started.2, owned_started started'.1 started'.2⟩
    exact (lockstep_events (lists_lockstep mapped) _ _ _ _ _ _ twins path path' same).1

theorem blocks_kept_fresh : ∃ arena arena', buddyAlloc fresh.arena 3 = some (arena, 4096) ∧
    buddyAlloc { arena with memory := poke arena.memory 20479 7 } 1 = some (arena', 20480) ∧
      arena'.memory 20479 = 7 := by
  obtain ⟨arena, returned⟩ := fresh_alloc
  have second : ((buddyAlloc fresh.arena 3).bind fun r =>
      (buddyAlloc { r.1 with memory := poke r.1.memory 20479 7 } 1).map (·.2)) = some 20480 := by
    decide +kernel
  rw [returned, Option.bind_some] at second
  obtain ⟨⟨arena', p⟩, returned', rfl⟩ := Option.map_eq_some_iff.mp second
  have begun : Reachable (ownerSystem 4096) ⟨fresh.arena, Holdings.nothing⟩ :=
    .start ⟨fresh_started, rfl⟩
  have granted : Reachable (ownerSystem 4096)
      ⟨arena, Holdings.nothing.take (4096, blockSize 2)⟩ :=
    .step begun (@OwnerStep.alloc ⟨fresh.arena, Holdings.nothing⟩ 3 4096 2 arena (by decide) rfl returned)
  have written := Reachable.step granted
    (@OwnerStep.write ⟨arena, Holdings.nothing.take (4096, blockSize 2)⟩ 4096 2 20479 7
      List.mem_cons_self ⟨by decide, by decide⟩)
  have both := Reachable.step written
    (@OwnerStep.alloc ⟨{ arena with memory := poke arena.memory 20479 7 },
      (Holdings.nothing.take (4096, blockSize 2)).write 20479 7⟩ 1 20480 0 arena' (by decide) rfl returned')
  have kept := ((blocks_kept 4096).1 _ both).1 (4096, blockSize 2)
    (List.mem_cons_of_mem _ List.mem_cons_self) 20479 (by decide) 7 rfl
  exact ⟨arena, arena', returned, returned', kept⟩

end LinuxMemory.Buddy
