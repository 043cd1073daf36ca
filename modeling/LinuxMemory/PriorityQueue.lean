import Mathlib.Order.Lattice
import Mathlib.Data.List.Basic
import Mathlib.Data.List.Perm.Basic

/-!
Queues that are served by priority, and in order of arrival within a priority. The
elements of each priority form a queue of their own, and these queues determine
the whole one: filling such a queue is a stable sort.
-/

namespace LinuxMemory.PriorityQueue

variable {Item Key : Type} [LinearOrder Key] (key : Item → Key)

/-- Behind everything that is at least as urgent. -/
def enqueue (item : Item) : List Item → List Item
  | [] => [item]
  | first :: rest =>
      if key first < key item then item :: first :: rest else first :: enqueue item rest

def Ordered (queue : List Item) : Prop := queue.Pairwise fun a b => key b ≤ key a

def rank (k : Key) (items : List Item) : List Item := items.filter fun a => decide (key a = k)

variable {key}

theorem rank_append (k : Key) (front items : List Item) :
    rank key k (front ++ items) = rank key k front ++ rank key k items :=
  List.filter_append front items

theorem rank_cons (k : Key) (item : Item) (items : List Item) :
    rank key k (item :: items) = rank key k [item] ++ rank key k items :=
  rank_append k [item] items

theorem mem_enqueue (item a : Item) (queue : List Item) :
    a ∈ enqueue key item queue ↔ a = item ∨ a ∈ queue := by
  induction queue with
  | nil => simp [enqueue]
  | cons first rest ih =>
      unfold enqueue
      split
      · exact List.mem_cons
      · rw [List.mem_cons, ih, List.mem_cons]
        exact or_left_comm

theorem length_enqueue (item : Item) (queue : List Item) :
    (enqueue key item queue).length = queue.length + 1 := by
  induction queue with
  | nil => rfl
  | cons first rest ih =>
      unfold enqueue
      split
      · rfl
      · rw [List.length_cons, ih, List.length_cons]

theorem ordered_enqueue (item : Item) (queue : List Item) (ordered : Ordered key queue) :
    Ordered key (enqueue key item queue) := by
  induction queue with
  | nil => exact List.pairwise_singleton _ _
  | cons first rest ih =>
      obtain ⟨least, ordered'⟩ := List.pairwise_cons.mp ordered
      unfold enqueue
      split
      · rename_i urgent
        refine List.pairwise_cons.mpr ⟨?_, ordered⟩
        intro a member
        rcases List.mem_cons.mp member with rfl | member
        · exact urgent.le
        · exact (least a member).trans urgent.le
      · rename_i served
        refine List.pairwise_cons.mpr ⟨?_, ih ordered'⟩
        intro a member
        rcases (mem_enqueue item a rest).mp member with rfl | member
        · exact not_lt.mp served
        · exact least a member

theorem rank_enqueue (item : Item) (queue : List Item) (ordered : Ordered key queue) (k : Key) :
    rank key k (enqueue key item queue) = rank key k queue ++ rank key k [item] := by
  induction queue with
  | nil => rfl
  | cons first rest ih =>
      obtain ⟨least, ordered'⟩ := List.pairwise_cons.mp ordered
      unfold enqueue
      split
      · rename_i urgent
        by_cases same : key item = k
        · -- nothing from here on has this priority
          have none : rank key k (first :: rest) = [] := by
            apply List.filter_eq_nil_iff.mpr
            intro a member
            have less : key a < k := by
              rcases List.mem_cons.mp member with rfl | member
              · exact same ▸ urgent
              · exact same ▸ (least a member).trans_lt urgent
            simpa using less.ne
          rw [none, List.nil_append]
          show rank key k ([item] ++ first :: rest) = _
          rw [rank, List.filter_append]
          exact (congrArg _ none).trans (List.append_nil _)
        · have skipped : rank key k [item] = [] := by simp [rank, same]
          rw [skipped, List.append_nil]
          exact List.filter_cons_of_neg (by simpa using same)
      · have further := ih ordered'
        unfold rank at further ⊢
        rw [List.filter_cons, List.filter_cons, further]
        split <;> rfl

theorem ordered_unique (left right : List Item) (ordered : Ordered key left)
    (ordered' : Ordered key right) (same : ∀ k, rank key k left = rank key k right) :
    left = right := by
  induction left generalizing right with
  | nil =>
      cases right with
      | nil => rfl
      | cons b rest => have empty := same (key b); simp [rank] at empty
  | cons a rest ih =>
      cases right with
      | nil => have empty := same (key a); simp [rank] at empty
      | cons b rest' =>
          obtain ⟨least, tail⟩ := List.pairwise_cons.mp ordered
          obtain ⟨least', tail'⟩ := List.pairwise_cons.mp ordered'
          have level : key a = key b := by
            -- each head is among the elements of the other list
            have here : a ∈ rank key (key a) (b :: rest') := by
              rw [← same]
              simp [rank]
            have there : b ∈ rank key (key b) (a :: rest) := by
              rw [same]
              simp [rank]
            apply le_antisymm
            · rcases List.mem_cons.mp (List.mem_filter.mp here).1 with rfl | member
              · exact le_refl _
              · exact least' a member
            · rcases List.mem_cons.mp (List.mem_filter.mp there).1 with rfl | member
              · exact le_refl _
              · exact least b member
          have heads := same (key a)
          rw [rank, rank, List.filter_cons_of_pos (by simp), List.filter_cons_of_pos (by simp [level])]
            at heads
          obtain ⟨rfl, _⟩ := List.cons.inj heads
          congr 1
          apply ih rest' tail tail'
          intro k
          have equal := same k
          unfold rank at equal ⊢
          rw [List.filter_cons, List.filter_cons] at equal
          split at equal
          · exact (List.cons.inj equal).2
          · exact equal

theorem fill_ranks (items queue : List Item) (ordered : Ordered key queue) :
    Ordered key (items.foldl (fun queue item => enqueue key item queue) queue) ∧
      ∀ k, rank key k (items.foldl (fun queue item => enqueue key item queue) queue) =
        rank key k queue ++ rank key k items := by
  induction items generalizing queue with
  | nil => exact ⟨ordered, fun k => (List.append_nil _).symm⟩
  | cons item rest ih =>
      obtain ⟨kept, ranks⟩ := ih _ (ordered_enqueue item queue ordered)
      refine ⟨kept, fun k => ?_⟩
      rw [List.foldl_cons, ranks k, rank_enqueue item queue ordered, List.append_assoc, ← rank_cons]

/-- Filling an empty queue sorts the arrivals, and keeps those of one priority in order. -/
theorem fill_sorts (items : List Item) :
    items.foldl (fun queue item => enqueue key item queue) [] =
      items.mergeSort fun a b => decide (key b ≤ key a) := by
  have trans : ∀ a b c : Item, decide (key b ≤ key a) = true → decide (key c ≤ key b) = true →
      decide (key c ≤ key a) = true := by
    intro a b c first second
    simp only [decide_eq_true_eq] at *
    exact second.trans first
  have total : ∀ a b : Item, (decide (key b ≤ key a) || decide (key a ≤ key b)) = true := by
    intro a b
    simpa using le_total (key b) (key a)
  obtain ⟨ordered, ranks⟩ := fill_ranks items [] (List.Pairwise.nil : Ordered key [])
  apply ordered_unique _ _ ordered
  · exact (List.pairwise_mergeSort trans total items).imp (by simp)
  · intro k
    rw [ranks k]
    -- the elements of one priority are sorted as they are, so the sort keeps their order
    have level : (rank key k items).Pairwise fun a b => decide (key b ≤ key a) = true := by
      refine List.Pairwise.imp_of_mem ?_ (List.pairwise_of_forall (R := fun _ _ => True) (by simp))
      intro a b here there _
      have atA := (List.mem_filter.mp here).2
      have atB := (List.mem_filter.mp there).2
      simp only [decide_eq_true_eq] at *
      rw [atA, atB]
    have kept := List.sublist_mergeSort trans total level (List.filter_sublist (l := items))
    have within := kept.filter (fun a => decide (key a = k))
    rw [rank, List.filter_filter] at within
    simp only [Bool.and_self] at within
    apply within.eq_of_length
    rw [((List.mergeSort_perm items _).filter _).length_eq]

end LinuxMemory.PriorityQueue
