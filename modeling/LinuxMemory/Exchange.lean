import Mathlib.Data.List.Nodup
import Mathlib.Data.Set.Function

/-!
Rearranging a list by exchanges, the last position first: position `i` gets one
of the elements up to it and is not touched again. The choices and the
rearrangements correspond one to one, which is why such a shuffle is unbiased.
-/

namespace LinuxMemory.Exchange

variable {Element : Type}

def exchange (a : List Element) (i j : Nat) : Option (List Element) :=
  match a[i]?, a[j]? with
  | some t, some u => some ((a.set i u).set j t)
  | _, _ => none

/-- One exchange for each position from `i` down to 1. -/
def arrange : Nat → List Nat → List Element → Option (List Element)
  | 0, _, a => some a
  | _ + 1, [], _ => none
  | i + 1, j :: js, a => (exchange a (i + 1) j).bind (arrange i js)

/-- One index out of `0..i` for each position from `i` down to 1. -/
def Choices : Nat → List Nat → Prop
  | 0, js => js = []
  | _ + 1, [] => False
  | i + 1, j :: js => j ≤ i + 1 ∧ Choices i js

def AgreeBehind (i : Nat) (a b : List Element) : Prop := ∀ k, i < k → b[k]? = a[k]?

structure Exchanged (a b : List Element) (i j : Nat) : Prop where
  perm : b.Perm a
  here : b[i]? = a[j]?
  others : ∀ k, k ≠ i → k ≠ j → b[k]? = a[k]?

theorem exchange_returns (a : List Element) (i j : Nat) (inside : i < a.length) (inside' : j < a.length) :
    ∃ b, exchange a i j = some b ∧ Exchanged a b i j := by
  refine ⟨(a.set i a[j]).set j a[i], ?_, ?_, ?_, ?_⟩
  · simp only [exchange, List.getElem?_eq_getElem inside, List.getElem?_eq_getElem inside']
  · exact List.set_set_perm inside inside'
  · by_cases same : j = i
    · subst same
      simp [inside]
    · rw [List.getElem?_set_ne same, List.getElem?_set_self inside, List.getElem?_eq_getElem inside']
  · intro k first second
    rw [List.getElem?_set_ne second.symm, List.getElem?_set_ne first.symm]

section Arrange
variable {a b : List Element} {i : Nat}

theorem agreeBehind_trans {c : List Element} (left : AgreeBehind i a b) (right : AgreeBehind i b c) :
    AgreeBehind i a c :=
  fun k behind => (right k behind).trans (left k behind)

theorem agreeBehind_succ (agree : AgreeBehind i a b) : AgreeBehind (i + 1) a b :=
  fun k behind => agree k (Nat.lt_of_succ_lt behind)

theorem exchanged_behind (j : Nat) (upto : j ≤ i + 1) (exchanged : Exchanged a b (i + 1) j) :
    AgreeBehind (i + 1) a b :=
  fun k behind => exchanged.others k (by omega) (by omega)

theorem arrange_returns (js : List Nat) (choices : Choices i js) (a : List Element)
    (inside : i < a.length) : ∃ b, arrange i js a = some b ∧ b.Perm a ∧ AgreeBehind i a b := by
  induction i generalizing js a with
  | zero => exact ⟨a, rfl, List.Perm.refl a, fun _ _ => rfl⟩
  | succ i ih =>
      cases js with
      | nil => cases choices
      | cons j js =>
          obtain ⟨upto, choices⟩ := choices
          obtain ⟨middle, call, exchanged⟩ := exchange_returns a (i + 1) j inside (by omega)
          have length := exchanged.perm.length_eq
          obtain ⟨b, rest, perm, agree⟩ := ih js choices middle (by omega)
          refine ⟨b, ?_, perm.trans exchanged.perm, ?_⟩
          · rw [arrange, call, Option.bind_some, rest]
          · exact agreeBehind_trans (exchanged_behind j upto exchanged) (agreeBehind_succ agree)

theorem arrange_first (j : Nat) (js : List Nat) (choices : Choices (i + 1) (j :: js))
    (inside : i + 1 < a.length) :
    ∃ middle b, exchange a (i + 1) j = some middle ∧ Exchanged a middle (i + 1) j ∧
      arrange i js middle = some b ∧ arrange (i + 1) (j :: js) a = some b ∧ b[i + 1]? = a[j]? := by
  obtain ⟨upto, choices⟩ := choices
  obtain ⟨middle, call, exchanged⟩ := exchange_returns a (i + 1) j inside (by omega)
  have length := exchanged.perm.length_eq
  obtain ⟨b, rest, -, agree⟩ := arrange_returns js choices middle (by omega)
  refine ⟨middle, b, call, exchanged, rest, ?_, ?_⟩
  · rw [arrange, call, Option.bind_some, rest]
  · rw [agree (i + 1) (Nat.lt_succ_self i), exchanged.here]

theorem position_inj (distinct : a.Nodup) (j k : Nat) (inside : j < a.length)
    (same : a[j]? = a[k]?) : j = k :=
  (List.getElem?_inj inside distinct).mp same

theorem arrange_injective (js js' : List Nat) (choices : Choices i js) (choices' : Choices i js')
    (a : List Element) (distinct : a.Nodup) (inside : i < a.length)
    (same : arrange i js a = arrange i js' a) : js = js' := by
  induction i generalizing js js' a with
  | zero => exact choices.trans choices'.symm
  | succ i ih =>
      cases js with
      | nil => cases choices
      | cons j js =>
          cases js' with
          | nil => cases choices'
          | cons j' js' =>
              obtain ⟨middle, b, call, exchanged, rest, whole, last⟩ := arrange_first j js choices inside
              obtain ⟨middle', b', call', -, rest', whole', last'⟩ := arrange_first j' js' choices' inside
              rw [whole, whole'] at same
              obtain rfl := Option.some.inj same
              have first : j = j' := by
                have upto := choices.1
                exact position_inj distinct j j' (by omega) (last.symm.trans last')
              subst first
              obtain rfl := Option.some.inj (call.symm.trans call')
              have length := exchanged.perm.length_eq
              rw [ih js js' choices.2 choices'.2 middle (exchanged.perm.nodup_iff.mpr distinct)
                (by omega) (rest.trans rest'.symm)]

theorem arrange_surjective (a b : List Element) (distinct : a.Nodup) (inside : i < a.length)
    (perm : b.Perm a) (agree : AgreeBehind i a b) :
    ∃ js, Choices i js ∧ arrange i js a = some b := by
  induction i generalizing a with
  | zero =>
      refine ⟨[], rfl, congrArg some ?_⟩
      -- lists that agree behind position 0 have the same head too
      cases a with
      | nil => exact perm.symm.nil_eq
      | cons first rest =>
          cases b with
          | nil => exact absurd perm.length_eq (by simp)
          | cons first' rest' =>
              have tails : rest' = rest := by
                apply List.ext_getElem?
                intro k
                simpa using agree (k + 1) (Nat.succ_pos k)
              subst tails
              have heads : first' = first := by
                have member := perm.mem_iff.mp (List.mem_cons_self (a := first') (l := rest'))
                rcases List.mem_cons.mp member with same | later
                · exact same
                · have distinct' := perm.nodup_iff.mpr distinct
                  exact absurd later (List.nodup_cons.mp distinct').1
              rw [heads]
  | succ i ih =>
      have length := perm.length_eq
      have distinct' := perm.nodup_iff.mpr distinct
      have inside' : i + 1 < b.length := by omega
      -- the element that has to end at position `i + 1`
      obtain ⟨j, below, found⟩ := List.mem_iff_getElem.mp (perm.mem_iff.mp (List.getElem_mem inside'))
      have place : b[i + 1]? = a[j]? := by
        rw [List.getElem?_eq_getElem inside', List.getElem?_eq_getElem below, found]
      have upto : j ≤ i + 1 := by
        by_contra behind
        have same := place.trans (agree j (by omega)).symm
        have position := position_inj distinct' (i + 1) j inside' same
        omega
      obtain ⟨middle, call, exchanged⟩ := exchange_returns a (i + 1) j inside below
      have length' := exchanged.perm.length_eq
      have agree' : AgreeBehind i middle b := by
        intro k behind
        rcases Nat.eq_or_lt_of_le (Nat.succ_le_of_lt behind) with here | further
        · rw [← here, place, exchanged.here]
        · rw [agree k further, exchanged.others k (by omega) (by omega)]
      obtain ⟨js, choices, rest⟩ := ih middle (exchanged.perm.nodup_iff.mpr distinct) (by omega)
        (perm.trans exchanged.perm.symm) agree'
      exact ⟨j :: js, ⟨upto, choices⟩, by rw [arrange, call, Option.bind_some, rest]⟩

/-- The choices correspond one to one to the rearrangements that keep what is
behind position `i`. -/
theorem arrange_bijective (a : List Element) (distinct : a.Nodup) (inside : i < a.length) :
    Set.BijOn (fun js => arrange i js a) {js | Choices i js}
      {result | ∃ b, result = some b ∧ b.Perm a ∧ AgreeBehind i a b} := by
  refine ⟨?_, ?_, ?_⟩
  · intro js choices
    exact arrange_returns js choices a inside
  · intro js choices js' choices' same
    exact arrange_injective js js' choices choices' a distinct inside same
  · rintro _ ⟨b, rfl, perm, agree⟩
    exact arrange_surjective a b distinct inside perm agree

end Arrange

end LinuxMemory.Exchange
