import Mathlib.Data.List.Nodup

/-!
Null-terminated lists threaded through a store. The store appears only as the
functions that read a node's link fields, so the same lemmas serve every layout
of the nodes. A represented list is unique, hence finite and free of cycles.
-/

namespace LinuxMemory.LinkedList

variable {Node : Type}

def Linked (null : Node) (next : Node → Node) : Node → List Node → Prop
  | head, [] => head = null
  | head, node :: rest => head = node ∧ node ≠ null ∧ Linked null next (next node) rest

section Singly
variable {null : Node} {next after : Node → Node}

theorem linked_unique (head : Node) (left right : List Node)
    (l : Linked null next head left) (r : Linked null next head right) : left = right := by
  induction left generalizing head right with
  | nil =>
      cases right with
      | nil => rfl
      | cons node rest => exact absurd (r.1.symm.trans l) r.2.1
  | cons node rest ih =>
      cases right with
      | nil => exact absurd (l.1.symm.trans r) l.2.1
      | cons other tail =>
          have same : node = other := l.1.symm.trans r.1
          subst same
          rw [ih (next node) tail l.2.2 r.2.2]

theorem linked_suffix (head node : Node) (front rest : List Node)
    (linked : Linked null next head (front ++ node :: rest)) :
    Linked null next node (node :: rest) := by
  induction front generalizing head with
  | nil => exact ⟨rfl, linked.2⟩
  | cons first tail ih => exact ih (next first) linked.2.2

theorem linked_not_null (head node : Node) (nodes : List Node)
    (linked : Linked null next head nodes) (member : node ∈ nodes) : node ≠ null := by
  obtain ⟨front, rest, rfl⟩ := List.append_of_mem member
  exact (linked_suffix head node front rest linked).2.1

theorem linked_head (head : Node) (nodes : List Node) (linked : Linked null next head nodes) :
    head = null ∨ head ∈ nodes := by
  cases nodes with
  | nil => exact Or.inl linked
  | cons node rest =>
      rw [linked.1]
      exact Or.inr List.mem_cons_self

theorem linked_null_iff (head : Node) (nodes : List Node) (linked : Linked null next head nodes) :
    head = null ↔ nodes = [] := by
  cases nodes with
  | nil => exact iff_of_true linked rfl
  | cons node rest =>
      rw [linked.1]
      exact iff_of_false linked.2.1 (List.cons_ne_nil node rest)

theorem linked_nodup (head : Node) (nodes : List Node)
    (linked : Linked null next head nodes) : nodes.Nodup := by
  induction nodes generalizing head with
  | nil => exact List.nodup_nil
  | cons node rest ih =>
      refine List.nodup_cons.mpr ⟨fun again => ?_, ih (next node) linked.2.2⟩
      obtain ⟨front, tail, shape⟩ := List.append_of_mem again
      have here : Linked null next node (node :: rest) := ⟨rfl, linked.2⟩
      have there : Linked null next node (node :: tail) := by
        apply linked_suffix node node (node :: front) tail
        simpa [shape] using here
      have same := linked_unique node _ _ here there
      have lengths := congrArg List.length same
      rw [shape] at lengths
      simp only [List.length_cons, List.length_append] at lengths
      omega

theorem linked_congr (head : Node) (nodes : List Node)
    (linked : Linked null next head nodes) (same : ∀ node ∈ nodes, after node = next node) :
    Linked null after head nodes := by
  induction nodes generalizing head with
  | nil => exact linked
  | cons node rest ih =>
      refine ⟨linked.1, linked.2.1, ?_⟩
      rw [same node List.mem_cons_self]
      exact ih (next node) linked.2.2 (fun other member => same other (List.mem_cons_of_mem _ member))

theorem linked_push (head node : Node) (nodes : List Node)
    (linked : Linked null next head nodes) (valid : node ≠ null)
    (link : after node = head) (same : ∀ other ∈ nodes, after other = next other) :
    Linked null after node (node :: nodes) := by
  refine ⟨rfl, valid, ?_⟩
  rw [link]
  exact linked_congr head nodes linked same

theorem linked_unlink (head node last : Node) (front rest : List Node)
    (linked : Linked null next head (front ++ last :: node :: rest))
    (link : after last = next node)
    (same : ∀ other ∈ front ++ rest, after other = next other) :
    Linked null after head (front ++ last :: rest) := by
  induction front generalizing head with
  | nil =>
      refine ⟨linked.1, linked.2.1, ?_⟩
      rw [link]
      exact linked_congr _ rest linked.2.2.2.2 (fun other member => same other (by simpa using member))
  | cons first tail ih =>
      refine ⟨linked.1, linked.2.1, ?_⟩
      rw [same first (by simp)]
      exact ih (next first) linked.2.2 (fun other member => same other (by
        simp only [List.cons_append, List.mem_cons]; exact Or.inr member))

def walk [DecidableEq Node] (null : Node) (next : Node → Node) : Nat → Node → List Node
  | 0, _ => []
  | fuel + 1, head => if head = null then [] else head :: walk null next fuel (next head)

theorem walk_eq [DecidableEq Node] (fuel : Nat) (head : Node) (nodes : List Node)
    (linked : Linked null next head nodes) (enough : nodes.length ≤ fuel) :
    walk null next fuel head = nodes := by
  induction nodes generalizing fuel head with
  | nil =>
      have done : head = null := linked
      cases fuel <;> simp [walk, done]
  | cons node rest ih =>
      obtain ⟨less, rfl⟩ : ∃ less, fuel = less + 1 := ⟨fuel - 1, by simp at enough; omega⟩
      obtain ⟨rfl, valid, tail⟩ := linked
      rw [walk, if_neg valid, ih less (next head) tail (by simpa using enough)]

end Singly

section Scan
variable [DecidableEq Node] (null : Node) (next : Node → Node) (hit : Node → Bool)

/-- `for (n = head; n; n = next n) if (hit n) return n; return null`, cut off
with `none` when the fuel runs out first. -/
def scan : Nat → Node → Option Node
  | 0, _ => none
  | fuel + 1, head =>
      if head = null then some null
      else if hit head then some head
      else scan fuel (next head)

variable {null next hit}

theorem scan_returns (fuel : Nat) (head : Node) (nodes : List Node)
    (linked : Linked null next head nodes) (enough : nodes.length < fuel) :
    scan null next hit fuel head = some ((nodes.find? hit).getD null) := by
  induction nodes generalizing fuel head with
  | nil =>
      obtain ⟨rest, rfl⟩ : ∃ rest, fuel = rest + 1 := ⟨fuel - 1, by simp at enough; omega⟩
      have done : head = null := linked
      simp [scan, done]
  | cons node rest ih =>
      obtain ⟨less, rfl⟩ : ∃ less, fuel = less + 1 := ⟨fuel - 1, by simp at enough; omega⟩
      obtain ⟨rfl, valid, tail⟩ := linked
      have shorter : rest.length < less := by simpa using enough
      by_cases found : hit head
      · simp [scan, valid, found]
      · simp [scan, valid, found, ih less (next head) tail shorter]

theorem scan_sound (fuel : Nat) (head result : Node) (nodes : List Node)
    (linked : Linked null next head nodes)
    (returned : scan null next hit fuel head = some result) :
    result = (nodes.find? hit).getD null := by
  induction nodes generalizing fuel head with
  | nil =>
      cases fuel with
      | zero => simp [scan] at returned
      | succ fuel =>
          have done : head = null := linked
          simpa [scan, done] using returned.symm
  | cons node rest ih =>
      obtain ⟨rfl, valid, tail⟩ := linked
      cases fuel with
      | zero => simp [scan] at returned
      | succ fuel =>
          by_cases found : hit head
          · simpa [scan, valid, found] using returned.symm
          · simp only [scan, valid, found, ↓reduceIte, Bool.false_eq_true] at returned
            simpa [found] using ih fuel (next head) tail returned

end Scan

def DoublyLinked (null : Node) (prev next : Node → Node) : Node → Node → List Node → Prop
  | _, head, [] => head = null
  | previous, head, node :: rest =>
      head = node ∧ node ≠ null ∧ prev node = previous ∧ DoublyLinked null prev next node (next node) rest

section Doubly
variable {null : Node} {prev next prev' next' : Node → Node}

theorem doubly_linked_forward (previous head : Node) (nodes : List Node)
    (links : DoublyLinked null prev next previous head nodes) : Linked null next head nodes := by
  induction nodes generalizing previous head with
  | nil => exact links
  | cons node rest ih => exact ⟨links.1, links.2.1, ih node (next node) links.2.2.2⟩

theorem doubly_linked_congr (previous head : Node) (nodes : List Node)
    (links : DoublyLinked null prev next previous head nodes)
    (sameNext : ∀ node ∈ nodes, next' node = next node)
    (samePrev : ∀ node ∈ nodes, prev' node = prev node) :
    DoublyLinked null prev' next' previous head nodes := by
  induction nodes generalizing previous head with
  | nil => exact links
  | cons node rest ih =>
      refine ⟨links.1, links.2.1, (samePrev node List.mem_cons_self).trans links.2.2.1, ?_⟩
      rw [sameNext node List.mem_cons_self]
      exact ih node (next node) links.2.2.2
        (fun other member => sameNext other (List.mem_cons_of_mem _ member))
        (fun other member => samePrev other (List.mem_cons_of_mem _ member))

theorem doubly_linked_behind [DecidableEq Node] (previous node head : Node) (nodes : List Node)
    (links : DoublyLinked null prev next previous head nodes)
    (sameNext : ∀ other ∈ nodes, next' other = next other)
    (newPrev : ∀ other ∈ nodes, prev' other = if other = head then node else prev other) :
    DoublyLinked null prev' next' node head nodes := by
  cases nodes with
  | nil => exact links
  | cons first rest =>
      have distinct := linked_nodup head _ (doubly_linked_forward previous head _ links)
      obtain ⟨rfl, valid, -, tail⟩ := links
      refine ⟨rfl, valid, ?_, ?_⟩
      · simpa using newPrev head List.mem_cons_self
      · rw [sameNext head List.mem_cons_self]
        apply doubly_linked_congr head (next head) rest tail
        · exact fun other member => sameNext other (List.mem_cons_of_mem _ member)
        · intro other member
          have apart : other ≠ head := fun same => (List.nodup_cons.mp distinct).1 (same ▸ member)
          simpa [apart] using newPrev other (List.mem_cons_of_mem _ member)

theorem doubly_linked_insert [DecidableEq Node] (head node : Node) (nodes : List Node)
    (links : DoublyLinked null prev next null head nodes) (valid : node ≠ null)
    (linkNext : next' node = head) (linkPrev : prev' node = null)
    (sameNext : ∀ other ∈ nodes, next' other = next other)
    (newPrev : ∀ other ∈ nodes, prev' other = if other = head then node else prev other) :
    DoublyLinked null prev' next' null node (node :: nodes) := by
  refine ⟨rfl, valid, linkPrev, ?_⟩
  rw [linkNext]
  exact doubly_linked_behind null node head nodes links sameNext newPrev

theorem doubly_linked_next (previous head node : Node) (front rest : List Node)
    (links : DoublyLinked null prev next previous head (front ++ node :: rest)) :
    next node = rest.headD null := by
  induction front generalizing previous head with
  | nil =>
      cases rest with
      | nil => exact links.2.2.2
      | cons first tail => exact links.2.2.2.1
  | cons first tail ih => exact ih first (next first) links.2.2.2

theorem doubly_linked_prev (previous head node : Node) (front rest : List Node)
    (links : DoublyLinked null prev next previous head (front ++ node :: rest)) :
    prev node = front.getLastD previous := by
  induction front generalizing previous head with
  | nil => exact links.2.2.1
  | cons first tail ih =>
      rw [List.getLastD_cons]
      exact ih first (next first) links.2.2.2

theorem doubly_linked_next_mem (previous head node : Node) (front rest : List Node)
    (links : DoublyLinked null prev next previous head (front ++ node :: rest)) :
    next node = null ∨ next node ∈ rest := by
  rw [doubly_linked_next previous head node front rest links]
  cases rest with
  | nil => exact Or.inl rfl
  | cons first tail => exact Or.inr List.mem_cons_self

theorem doubly_linked_prev_mem (previous head node : Node) (front rest : List Node)
    (links : DoublyLinked null prev next previous head (front ++ node :: rest)) :
    prev node = previous ∨ prev node ∈ front := by
  rw [doubly_linked_prev previous head node front rest links]
  cases front with
  | nil => exact Or.inl rfl
  | cons first tail =>
      rw [List.getLastD_cons]
      exact Or.inr List.getLastD_mem_cons

/-- Taking `node` out: its predecessor (or the head) skips it and its successor
points back past it. The induction runs over the nodes before it. -/
theorem doubly_linked_remove_from [DecidableEq Node] (previous head node : Node)
    (front rest : List Node)
    (links : DoublyLinked null prev next previous head (front ++ node :: rest))
    (outside : previous ∉ front ++ node :: rest)
    (newNext : ∀ other ∈ front ++ rest,
      next' other = if other = prev node then next node else next other)
    (newPrev : ∀ other ∈ front ++ rest,
      prev' other = if other = next node then prev node else prev other) :
    DoublyLinked null prev' next' previous (if front = [] then next node else head)
      (front ++ rest) := by
  induction front generalizing previous head with
  | nil =>
      -- `previous` is no node, so no `next` of the rest is redirected
      obtain ⟨-, -, back, tail⟩ := links
      simp only [List.nil_append, ↓reduceIte] at *
      have keptNext : ∀ other ∈ rest, next' other = next other := by
        intro other member
        have apart : other ≠ prev node := fun same =>
          outside (List.mem_cons_of_mem _ (back ▸ same ▸ member))
        simpa [apart] using newNext other member
      rw [← back]
      exact doubly_linked_behind node (prev node) (next node) rest tail keptNext newPrev
  | cons first tail ih =>
      have distinct := linked_nodup head _ (doubly_linked_forward previous head _ links)
      have back := doubly_linked_prev previous head node (first :: tail) rest links
      have forth := doubly_linked_next_mem previous head node (first :: tail) rest links
      obtain ⟨start, valid, firstPrev, deeper⟩ := links
      have fresh : first ∉ tail ++ node :: rest := (List.nodup_cons.mp distinct).1
      have inner := ih first (next first) deeper fresh
        (fun other member => newNext other (List.mem_cons_of_mem _ member))
        (fun other member => newPrev other (List.mem_cons_of_mem _ member))
      have firstApart : first ≠ next node := by
        intro same
        rcases forth with isNull | later
        · exact valid (same.trans isNull)
        · exact fresh (List.mem_append_right _ (List.mem_cons_of_mem _ (same ▸ later)))
      refine ⟨by simpa using start, valid, ?_, ?_⟩
      · rw [newPrev first (by simp), if_neg firstApart, firstPrev]
      · rw [newNext first (by simp)]
        -- `first` is redirected only where it is the predecessor of `node`
        cases tail with
        | nil => simpa [back] using inner
        | cons second others =>
            have apart : first ≠ prev node := by
              intro same
              apply fresh
              rw [same, back, List.getLastD_cons, List.getLastD_cons]
              exact List.mem_append_left _ List.getLastD_mem_cons
            simpa [apart] using inner

theorem doubly_linked_remove [DecidableEq Node] (head node : Node) (front rest : List Node)
    (links : DoublyLinked null prev next null head (front ++ node :: rest))
    (newNext : ∀ other ∈ front ++ rest,
      next' other = if other = prev node then next node else next other)
    (newPrev : ∀ other ∈ front ++ rest,
      prev' other = if other = next node then prev node else prev other) :
    DoublyLinked null prev' next' null (if prev node = null then next node else head)
      (front ++ rest) := by
  have forward := doubly_linked_forward null head _ links
  have outside : null ∉ front ++ node :: rest :=
    fun member => linked_not_null head null _ forward member rfl
  have back := doubly_linked_prev null head node front rest links
  have atFront : (prev node = null) ↔ front = [] := by
    rw [back]
    cases front with
    | nil => simp
    | cons first tail =>
        have member : tail.getLastD first ∈ first :: tail ++ node :: rest :=
          List.mem_append_left _ List.getLastD_mem_cons
        have valid := linked_not_null head _ _ forward member
        rw [List.getLastD_cons]
        exact iff_of_false valid (List.cons_ne_nil first tail)
  simp only [atFront]
  exact doubly_linked_remove_from null head node front rest links outside newNext newPrev

end Doubly

end LinuxMemory.LinkedList
