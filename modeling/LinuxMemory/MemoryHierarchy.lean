import LinuxMemory.Exchange
import LinuxMemory.Word
import Mathlib.Data.Nat.ModEq

/-!
The pointer chase of `00_fundamentals/01_memory_hierarchy.c`. `measure` shuffles
the indices of a buffer and stores in each slot the index behind its own, so
that the chase runs through all slots before it comes back. `rand` is the value
of each call of `rand()`; an access out of bounds, or a read of a slot that was
not written, is `none`.
-/

namespace LinuxMemory.MemoryHierarchy

open Exchange

/-- The loop of `shuffle` from `i` down to 1, with the calls of `rand` so far. -/
def shuffleFrom (rand : Nat → Nat) : Nat → Nat → List Nat → Option (List Nat)
  | 0, _, a => some a
  | i + 1, calls, a => do
      let j := rand calls % (i + 2)
      let a ← exchange a (i + 1) j
      shuffleFrom rand i (calls + 1) a

def shuffle (rand : Nat → Nat) (a : List Nat) (n : Nat) : Option (List Nat) :=
  shuffleFrom rand (Word.sub n 1) 0 a

def linkRing (idx : List Nat) (n : Nat) : Nat → Option (List (Option Nat))
  | 0 => some (List.replicate n none)
  | i + 1 => do
      let buf ← linkRing idx n i
      let slot ← idx[i]?
      let next ← idx[(i + 1) % n]?
      if slot < buf.length then some (buf.set slot (some next)) else none

def buildRing (rand : Nat → Nat) (n : Nat) : Option (List (Option Nat)) := do
  let idx ← shuffle rand (List.range n) n
  linkRing idx n n

def chase (buf : List (Option Nat)) : Nat → Nat → Option Nat
  | 0, k => some k
  | iters + 1, k => do
      let cell ← buf[k]?
      let next ← cell
      chase buf iters next

/-! `shuffle` and its choices. -/

def chosenFrom (rand : Nat → Nat) : Nat → Nat → List Nat
  | 0, _ => []
  | i + 1, calls => rand calls % (i + 2) :: chosenFrom rand i (calls + 1)

def chosen (rand : Nat → Nat) (n : Nat) : List Nat := chosenFrom rand (n - 1) 0

def replay (js : List Nat) (calls : Nat) : Nat := js.getD calls 0

def leaves (n : Nat) (js : List Nat) : Option (List Nat) := shuffle (replay js) (List.range n) n

theorem shuffleFrom_eq (rand : Nat → Nat) (i calls : Nat) (a : List Nat) :
    shuffleFrom rand i calls a = arrange i (chosenFrom rand i calls) a := by
  induction i generalizing calls a with
  | zero => rfl
  | succ i ih =>
      simp only [shuffleFrom, chosenFrom, arrange, ih]
      rfl

theorem chosenFrom_choices (rand : Nat → Nat) (i calls : Nat) : Choices i (chosenFrom rand i calls) := by
  induction i generalizing calls with
  | zero => rfl
  | succ i ih =>
      have below : rand calls % (i + 2) < i + 2 := Nat.mod_lt _ (Nat.succ_pos _)
      exact ⟨Nat.le_of_lt_succ below, ih (calls + 1)⟩

theorem chosenFrom_replay (i : Nat) (earlier js : List Nat) (choices : Choices i js) :
    chosenFrom (replay (earlier ++ js)) i earlier.length = js := by
  induction i generalizing earlier js with
  | zero => exact choices.symm
  | succ i ih =>
      cases js with
      | nil => cases choices
      | cons j js =>
          obtain ⟨upto, choices⟩ := choices
          have here : replay (earlier ++ j :: js) earlier.length = j := by simp [replay]
          have later := ih (earlier ++ [j]) js choices
          rw [List.append_assoc, List.singleton_append, List.length_append, List.length_singleton] at later
          rw [chosenFrom, here, later, Nat.mod_eq_of_lt (Nat.lt_succ_of_le upto)]

section Shuffle
variable {n : Nat}

theorem shuffle_eq (nonempty : 1 ≤ n) (size : n < 2 ^ 64) (rand : Nat → Nat) (a : List Nat) :
    shuffle rand a n = arrange (n - 1) (chosen rand n) a := by
  rw [shuffle, Word.sub_exact n 1 nonempty size, shuffleFrom_eq, chosen]

theorem chosen_replay (js : List Nat) (choices : Choices (n - 1) js) : chosen (replay js) n = js :=
  chosenFrom_replay (n - 1) [] js choices

theorem leaves_eq (nonempty : 1 ≤ n) (size : n < 2 ^ 64) (js : List Nat)
    (choices : Choices (n - 1) js) : leaves n js = arrange (n - 1) js (List.range n) := by
  rw [leaves, shuffle_eq nonempty size, chosen_replay js choices]

theorem agree_whole (a : List Nat) (perm : a.Perm (List.range n)) :
    AgreeBehind (n - 1) (List.range n) a := by
  intro k behind
  have length := perm.length_eq
  rw [List.length_range] at length
  rw [List.getElem?_eq_none (by omega), List.getElem?_eq_none (by rw [List.length_range]; omega)]

theorem shuffle_perm (nonempty : 1 ≤ n) (size : n < 2 ^ 64) (rand : Nat → Nat) :
    ∃ idx, shuffle rand (List.range n) n = some idx ∧ idx.Perm (List.range n) := by
  obtain ⟨idx, arranged, perm, -⟩ := arrange_returns (chosen rand n) (chosenFrom_choices rand (n - 1) 0)
    (List.range n) (by rw [List.length_range]; omega)
  exact ⟨idx, (shuffle_eq nonempty size rand _).trans arranged, perm⟩

end Shuffle

/-- Every sequence of choices leads to one permutation, and every permutation
comes from exactly one sequence. What `rand` returns matters only through the
choices, and every sequence of choices can be drawn. -/
theorem shuffle_unbiased (n : Nat) (nonempty : 1 ≤ n) (size : n < 2 ^ 64) :
    Set.BijOn (leaves n) {js | Choices (n - 1) js}
        {result | ∃ a, result = some a ∧ a.Perm (List.range n)} ∧
      (∀ rand, Choices (n - 1) (chosen rand n) ∧
        shuffle rand (List.range n) n = leaves n (chosen rand n)) ∧
      ∀ js, Choices (n - 1) js → ∃ rand, chosen rand n = js := by
  have whole := arrange_bijective (List.range n) List.nodup_range
    (by rw [List.length_range]; omega : n - 1 < (List.range n).length)
  have targets : {result | ∃ b, result = some b ∧ b.Perm (List.range n) ∧
      AgreeBehind (n - 1) (List.range n) b} = {result | ∃ a, result = some a ∧ a.Perm (List.range n)} := by
    ext result
    constructor
    · rintro ⟨b, same, perm, -⟩
      exact ⟨b, same, perm⟩
    · rintro ⟨b, same, perm⟩
      exact ⟨b, same, perm, agree_whole b perm⟩
  rw [targets] at whole
  refine ⟨whole.congr fun js choices => (leaves_eq nonempty size js choices).symm, ?_, ?_⟩
  · intro rand
    have choices : Choices (n - 1) (chosen rand n) := chosenFrom_choices rand (n - 1) 0
    exact ⟨choices, by rw [shuffle_eq nonempty size, leaves_eq nonempty size _ choices]⟩
  · exact fun js choices => ⟨replay js, chosen_replay js choices⟩

theorem shuffle_unbiased_three : leaves 3 [1, 0] = some [2, 0, 1] ∧
    Set.BijOn (leaves 3) {js | Choices 2 js} {result | ∃ a, result = some a ∧ a.Perm (List.range 3)} :=
  ⟨by decide, (shuffle_unbiased 3 (by decide) (by decide)).1⟩

/-! The ring. -/

def around (idx : List Nat) (n m : Nat) : Nat := idx.getD (m % n) 0

/-- The chase from slot 0 is one cycle through the whole buffer. -/
structure SingleCycle (n : Nat) (buf : List (Option Nat)) : Prop where
  length : buf.length = n
  written : ∀ cell ∈ buf, ∃ next < n, cell = some next
  visits : ∀ slot < n, ∃! iters, iters < n ∧ chase buf iters 0 = some slot
  returns : chase buf n 0 = some 0
  reached : ∀ iters, ∃ slot < n, chase buf iters 0 = some slot
  periodic : ∀ iters, chase buf iters 0 = chase buf (iters % n) 0

section Ring
variable {idx : List Nat} {n : Nat} {buf : List (Option Nat)}

theorem around_found (perm : idx.Perm (List.range n)) (nonempty : 0 < n) (m : Nat) :
    idx[m % n]? = some (around idx n m) ∧ around idx n m < n := by
  have length := perm.length_eq
  rw [List.length_range] at length
  have inside : m % n < idx.length := by
    rw [length]
    exact Nat.mod_lt m nonempty
  have found : around idx n m = idx[m % n] := List.getD_eq_getElem _ _ inside
  rw [found]
  exact ⟨List.getElem?_eq_getElem inside, List.mem_range.mp (perm.mem_iff.mp (List.getElem_mem inside))⟩

theorem around_mod (m : Nat) : around idx n (m % n) = around idx n m := by
  rw [around, around, Nat.mod_mod]

theorem around_succ (m : Nat) : around idx n (m % n + 1) = around idx n (m + 1) := by
  rw [around, around, Nat.mod_add_mod]

theorem around_inj (perm : idx.Perm (List.range n)) (nonempty : 0 < n) (m k : Nat)
    (same : around idx n m = around idx n k) : m % n = k % n := by
  have distinct := perm.nodup_iff.mpr List.nodup_range
  have first := (around_found perm nonempty m).1
  have second := (around_found perm nonempty k).1
  apply position_inj distinct (m % n) (k % n)
  · exact (List.getElem?_eq_some_iff.mp first).1
  · rw [first, second, same]

theorem around_onto (perm : idx.Perm (List.range n)) (slot : Nat) (inside : slot < n) :
    ∃ m < n, around idx n m = slot := by
  have member := perm.mem_iff.mpr (List.mem_range.mpr inside)
  obtain ⟨m, below, found⟩ := List.mem_iff_getElem.mp member
  have length := perm.length_eq
  rw [List.length_range] at length
  refine ⟨m, by omega, ?_⟩
  rw [around, Nat.mod_eq_of_lt (by omega), List.getD_eq_getElem _ _ below, found]

theorem linkRing_returns (perm : idx.Perm (List.range n)) (i : Nat) (upto : i ≤ n) :
    ∃ buf, linkRing idx n i = some buf ∧ buf.length = n ∧
      ∀ m < i, buf[around idx n m]? = some (some (around idx n (m + 1))) := by
  induction i with
  | zero => exact ⟨_, rfl, List.length_replicate, fun m less => absurd less (Nat.not_lt_zero m)⟩
  | succ i ih =>
      have nonempty : 0 < n := by omega
      obtain ⟨buf, linked, length, links⟩ := ih (Nat.le_of_succ_le upto)
      obtain ⟨slot, inside⟩ := around_found perm nonempty i
      obtain ⟨next, -⟩ := around_found perm nonempty (i + 1)
      rw [Nat.mod_eq_of_lt upto] at slot
      refine ⟨buf.set (around idx n i) (some (around idx n (i + 1))), ?_, ?_, ?_⟩
      · simp only [linkRing, linked, slot, next, Option.bind_eq_bind, Option.bind_some, length, if_pos inside]
      · rw [List.length_set, length]
      · intro m less
        rcases Nat.eq_or_lt_of_le (Nat.le_of_lt_succ less) with rfl | earlier
        · exact List.getElem?_set_self (by omega)
        · have different : around idx n i ≠ around idx n m := by
            intro same
            have positions := around_inj perm nonempty i m same
            rw [Nat.mod_eq_of_lt upto, Nat.mod_eq_of_lt (by omega)] at positions
            omega
          rw [List.getElem?_set_ne different]
          exact links m earlier

theorem chase_around (nonempty : 0 < n)
    (links : ∀ m < n, buf[around idx n m]? = some (some (around idx n (m + 1)))) (iters m : Nat) :
    chase buf iters (around idx n m) = some (around idx n (m + iters)) := by
  induction iters generalizing m with
  | zero => rfl
  | succ iters ih =>
      have here := links (m % n) (Nat.mod_lt m nonempty)
      rw [around_mod, around_succ] at here
      have onward := ih (m + 1)
      rw [Nat.add_right_comm] at onward
      simp only [chase, here, Option.bind_eq_bind, Option.bind_some]
      exact onward

/-- From the position of index 0 the chase goes once around in `n` steps. -/
theorem single_cycle (perm : idx.Perm (List.range n)) (nonempty : 0 < n) (length : buf.length = n)
    (links : ∀ m < n, buf[around idx n m]? = some (some (around idx n (m + 1)))) :
    SingleCycle n buf := by
  obtain ⟨start, below, isZero⟩ := around_onto perm 0 nonempty
  have steps : ∀ iters, chase buf iters 0 = some (around idx n (start + iters)) := by
    intro iters
    have path := chase_around nonempty links iters start
    rwa [isZero] at path
  constructor
  · exact length
  · intro cell member
    obtain ⟨slot, inside, found⟩ := List.mem_iff_getElem.mp member
    obtain ⟨m, less, rfl⟩ := around_onto perm slot (by omega)
    have link := links m less
    rw [List.getElem?_eq_getElem inside, found] at link
    exact ⟨_, (around_found perm nonempty (m + 1)).2, Option.some.inj link⟩
  · intro slot inside
    obtain ⟨m, less, rfl⟩ := around_onto perm slot inside
    refine ⟨(m + (n - start)) % n, ⟨Nat.mod_lt _ nonempty, ?_⟩, ?_⟩
    · have whole : (start + (m + (n - start)) % n) % n = m % n := by
        have sum : start + (m + (n - start)) = m + n := by omega
        rw [Nat.add_mod_mod, sum, Nat.add_mod_right]
      rw [steps, around, whole, ← around]
    · rintro iters ⟨few, lands⟩
      rw [steps] at lands
      have positions := around_inj perm nonempty _ _ (Option.some.inj lands)
      have shifted : start + iters ≡ start + (m + (n - start)) [MOD n] := by
        have sum : start + (m + (n - start)) = m + n := by omega
        rw [Nat.ModEq, sum, Nat.add_mod_right, positions]
      have equal : iters % n = (m + (n - start)) % n := Nat.ModEq.add_left_cancel' start shifted
      rwa [Nat.mod_eq_of_lt few] at equal
  · rw [steps, around, Nat.add_mod_right, ← around, isZero]
  · exact fun iters => ⟨_, (around_found perm nonempty (start + iters)).2, steps iters⟩
  · intro iters
    rw [steps, steps, around, around, Nat.add_mod_mod]

end Ring

/-- Whatever `rand` returns, the ring is built without an access out of bounds and
the chase from slot 0 visits all slots before it returns. -/
theorem ring_single_cycle (n : Nat) (nonempty : 1 ≤ n) (size : n < 2 ^ 64) (rand : Nat → Nat) :
    ∃ buf, buildRing rand n = some buf ∧ SingleCycle n buf := by
  obtain ⟨idx, shuffled, perm⟩ := shuffle_perm nonempty size rand
  obtain ⟨buf, linked, length, links⟩ := linkRing_returns perm n (Nat.le_refl n)
  refine ⟨buf, ?_, single_cycle perm nonempty length links⟩
  rw [buildRing, shuffled]
  exact linked

theorem ring_single_cycle_four :
    buildRing (fun _ => 42) 4 = some [some 2, some 3, some 1, some 0] ∧
      ∃ buf, buildRing (fun _ => 42) 4 = some buf ∧ SingleCycle 4 buf :=
  ⟨by decide, ring_single_cycle 4 (by decide) (by decide) fun _ => 42⟩

end LinuxMemory.MemoryHierarchy
