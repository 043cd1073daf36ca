import LinuxMemory.ProcText

/-!
The aggregator of `12_debugging_tools/02_proc_smaps.c`, which sums five of the
attributes of `/proc/self/smaps`. It knows an attribute by the start of whatever
`fgets` returns. Signed overflow of a sum is `none`.
-/

namespace LinuxMemory.ProcSmaps

open Scanf Stdio ProcText

inductive Counter where
  | rss
  | pss
  | swap
  | privDirty
  | privClean
deriving DecidableEq

def Counter.label : Counter → List Char
  | .rss => "Rss".toList
  | .pss => "Pss".toList
  | .swap => "Swap".toList
  | .privDirty => "Private_Dirty".toList
  | .privClean => "Private_Clean".toList

structure Totals where
  rss : Int
  pss : Int
  swap : Int
  privDirty : Int
  privClean : Int
deriving DecidableEq

def format (c : Counter) : List Directive :=
  (c.label ++ [':']).map .literal ++ [.blanks, .signed, .blanks, .literal 'k', .literal 'B']

/-- `sscanf(line, "Rss: %ld kB", &v) == 1`, with the value of `v`. -/
def matched (c : Counter) (line : List Char) : Option Int :=
  match sscanf (format c) line with
  | [.signed v] => some v
  | _ => none

/-- The tests of the loop one after another, and what the first that holds adds. -/
def contribution (line : List Char) : Option (Counter × Int) :=
  [Counter.rss, .pss, .swap, .privDirty, .privClean].findSome? fun c => (matched c line).map fun v => (c, v)

def addLong (sum v : Int) : Option Int :=
  if -(2 ^ 63) ≤ sum + v ∧ sum + v < 2 ^ 63 then some (sum + v) else none

def Totals.add (t : Totals) (v : Int) : Counter → Option Totals
  | .rss => (addLong t.rss v).map fun sum => { t with rss := sum }
  | .pss => (addLong t.pss v).map fun sum => { t with pss := sum }
  | .swap => (addLong t.swap v).map fun sum => { t with swap := sum }
  | .privDirty => (addLong t.privDirty v).map fun sum => { t with privDirty := sum }
  | .privClean => (addLong t.privClean v).map fun sum => { t with privClean := sum }

def Totals.accept (t : Totals) : Option (Counter × Int) → Option Totals
  | none => some t
  | some (c, v) => t.add v c

def aggregate (text : List Char) : Option Totals :=
  (pieces 511 text).foldlM (fun t line => t.accept (contribution line)) ⟨0, 0, 0, 0, 0⟩

/-! What the loop should make of the records. -/

structure Entry where
  text : List Char
  line : Line text
  counted : Option (Counter × Int)

def counterOf (name : List Char) : Option Counter :=
  [Counter.rss, .pss, .swap, .privDirty, .privClean].find? fun c => name = c.label

def headerEntry (v : Vma) : Entry := ⟨v.text, v.line, none⟩

def attributeEntry (a : Attribute) : Entry :=
  ⟨a.text, a.line, (counterOf a.name).map fun c => (c, a.value.value)⟩

def flagsEntry (r : Record) : Entry := ⟨r.flagsText, r.flags_line, none⟩

def entries (r : Record) : List Entry :=
  headerEntry r.header :: (r.attributes.map attributeEntry ++ [flagsEntry r])

def sumOf (c : Counter) (records : List Record) : Nat :=
  (records.map fun r => ((r.attributes.filter fun a => a.name = c.label).map fun a => a.value.value).sum).sum

def leftover (entry : Entry) : List (List Char) := laterPieces 511 entry.text

/-- The first piece of a line adds what the line should add, the others nothing. -/
def expected (entry : Entry) : List (Option (Counter × Int)) :=
  entry.counted :: (leftover entry).map fun _ => none

structure Aggregated (records : List Record) : Prop where
  contributions : (pieces 511 (smapsText records)).map contribution =
    (records.flatMap entries).flatMap expected
  totals : aggregate (smapsText records) = some ⟨sumOf .rss records, sumOf .pss records,
    sumOf .swap records, sumOf .privDirty records, sumOf .privClean records⟩

/-! How a line is recognised. -/

theorem label_plain (c : Counter) : c.label ≠ [] ∧ ':' ∉ c.label ∧ c.label.length ≤ 13 := by
  cases c <;> decide

theorem label_head (c : Counter) :
    c.label.head? = some 'R' ∨ c.label.head? = some 'P' ∨ c.label.head? = some 'S' := by
  cases c <;> decide

theorem label_injective (c d : Counter) (same : c.label = d.label) : c = d := by
  revert same
  cases c <;> cases d <;> decide

theorem counterOf_label (c : Counter) : counterOf c.label = some c := by
  cases c <;> decide

theorem counterOf_none (name : List Char) (other : counterOf name = none) (c : Counter) : name ≠ c.label := by
  rintro rfl
  rw [counterOf_label] at other
  cases other

theorem counterOf_some (name : List Char) (c : Counter) (named : counterOf name = some c) :
    name = c.label := by
  simpa using List.find?_some named

theorem matched_start (c : Counter) (line : List Char) (v : Int) (found : matched c line = some v) :
    c.label ++ [':'] <+: line := by
  apply literals_needed
  intro nothing
  rw [matched, format, nothing] at found
  cases found

theorem contribution_none (line : List Char) (unlike : ∀ c : Counter, ¬ c.label ++ [':'] <+: line) :
    contribution line = none := by
  rw [contribution, List.findSome?_eq_none_iff]
  intro c _
  rw [Option.map_eq_none_iff, Option.eq_none_iff_forall_ne_some]
  exact fun v found => unlike c (matched_start c line v found)

theorem unlike_head {line : List Char} {d : Char} (head : line.head? = some d)
    (other : d ≠ 'R' ∧ d ≠ 'P' ∧ d ≠ 'S') (c : Counter) : ¬ c.label ++ [':'] <+: line := by
  rintro ⟨rest, rfl⟩
  have first : c.label.head? = some d := by
    rwa [List.append_assoc, List.head?_append_of_ne_nil _ (label_plain c).1] at head
  rcases label_head c with capital | capital | capital
  · exact other.1 (Option.some.inj (first.symm.trans capital))
  · exact other.2.1 (Option.some.inj (first.symm.trans capital))
  · exact other.2.2 (Option.some.inj (first.symm.trans capital))

theorem contribution_header (v : Vma) : contribution (v.text.take 511) = none := by
  obtain ⟨d, more, same⟩ := List.exists_cons_of_ne_nil v.start.nonempty
  have hex : isDigit 16 d := v.start.all d (by rw [same]; exact List.mem_cons_self)
  have head : (v.text.take 511).head? = some d := by
    rw [Vma.text, Vma.fields, same]
    rfl
  exact contribution_none _ (unlike_head head
    ⟨digit_ne hex (by decide), digit_ne hex (by decide), digit_ne hex (by decide)⟩)

theorem contribution_flags (r : Record) : contribution (r.flagsText.take 511) = none := by
  have head : (r.flagsText.take 511).head? = some 'V' := by
    rw [List.head?_take, if_neg (by decide)]
    rfl
  exact contribution_none _ (unlike_head head (by decide))

theorem colon_unique {name label front back : List Char} (plain : ':' ∉ name) (labelPlain : ':' ∉ label)
    (same : name ++ ':' :: front = label ++ ':' :: back) : name = label := by
  induction name generalizing label with
  | nil =>
      cases label with
      | nil => rfl
      | cons d label =>
          have colon : ':' = d := (List.cons.inj same).1
          exact absurd (by rw [colon]; exact List.mem_cons_self) labelPlain
  | cons c name ih =>
      cases label with
      | nil =>
          have colon : c = ':' := (List.cons.inj same).1
          exact absurd (by rw [← colon]; exact List.mem_cons_self) plain
      | cons d label =>
          obtain ⟨here, later⟩ := List.cons.inj same
          rw [List.mem_cons, not_or] at plain labelPlain
          rw [here, ih plain.2 labelPlain.2 later]

section Attributes
variable (a : Attribute) (c : Counter)

theorem matched_other (other : a.name ≠ c.label) : matched c (a.text.take 511) = none := by
  rw [Option.eq_none_iff_forall_ne_some]
  intro v found
  obtain ⟨rest, start⟩ := (matched_start c _ v found).trans (List.take_prefix 511 a.text)
  rw [List.append_assoc, List.singleton_append] at start
  have plain : ':' ∉ a.name := fun member => (a.plain _ member).1 rfl
  exact other (colon_unique plain (label_plain c).2.1 start.symm)

theorem unit_assigns (rest : List Char) : sscanf [.blanks, .literal 'k', .literal 'B'] rest = [] := by
  have shape := sscanf_shape [.blanks, .literal 'k', .literal 'B'] rest
  simpa [Shape, Assigned] using shape

theorem matched_own (own : a.name = c.label) :
    matched c (a.text.take 511) = some (a.value.value : Int) := by
  have short : a.text.length ≤ 511 := by
    have name := (label_plain c).2.2
    have whole := a.text_length
    rw [own] at whole
    omega
  have split : a.text = (c.label ++ [':']) ++ (List.replicate a.pad ' ' ++ (a.value.digits ++
      ((if a.inKb then [' ', 'k', 'B'] else []) ++ ['\n']))) := by
    rw [Attribute.text, own, List.append_assoc, List.singleton_append]
  have behind : Behind 10 ((if a.inKb then [' ', 'k', 'B'] else []) ++ ['\n']) := by
    split <;> exact behind_cons (by decide) (by decide) (by decide)
  rw [List.take_of_length_le short, split, matched, format, sscanf_literals,
    sscanf_blanks _ (blanks_space a.pad) (word_head a.value.nonempty (a.value.plain (by decide))),
    sscanf_signed a.value.nonempty a.value.all behind a.fits, unit_assigns]
  rfl

theorem contribution_attribute : contribution (a.text.take 511) = (attributeEntry a).counted := by
  rw [attributeEntry]
  cases named : counterOf a.name with
  | none =>
      rw [contribution, List.findSome?_eq_none_iff.mpr]
      · rfl
      · intro c _
        rw [matched_other a c (counterOf_none a.name named c), Option.map_none]
  | some own =>
      have name := counterOf_some a.name own named
      have tests : ∀ c, (matched c (a.text.take 511)).map (fun v => (c, v)) =
          if c = own then some (own, (a.value.value : Int)) else none := by
        intro c
        by_cases same : c = own
        · rw [same, matched_own a own name, if_pos rfl, Option.map_some]
        · have other : a.name ≠ c.label := fun alike => same (label_injective c own (alike.symm.trans name))
          rw [matched_other a c other, if_neg same, Option.map_none]
      rw [contribution]
      simp only [tests]
      cases own <;> rfl

end Attributes

theorem contribution_first (r : Record) : ∀ entry ∈ entries r,
    contribution (entry.text.take 511) = entry.counted := by
  intro entry member
  simp only [entries, List.mem_cons, List.mem_append, List.mem_map, List.mem_nil_iff, or_false] at member
  rcases member with rfl | ⟨a, -, rfl⟩ | rfl
  · exact contribution_header r.header
  · exact contribution_attribute a
  · exact contribution_flags r

/-! The sums. -/

def amount (c : Counter) : List (Option (Counter × Int)) → Int
  | [] => 0
  | none :: passes => amount c passes
  | some (d, v) :: passes => (if d = c then v else 0) + amount c passes

def Totals.of (f : Counter → Int) : Totals := ⟨f .rss, f .pss, f .swap, f .privDirty, f .privClean⟩

section Sums
variable (c : Counter)

theorem amount_append (front back : List (Option (Counter × Int))) :
    amount c (front ++ back) = amount c front + amount c back := by
  induction front with
  | nil => exact (Int.zero_add _).symm
  | cons pass front ih =>
      cases pass with
      | none => exact ih
      | some pass => rw [List.cons_append, amount, amount, ih, Int.add_assoc]

theorem amount_nonneg (passes : List (Option (Counter × Int)))
    (nonneg : ∀ d v, some (d, v) ∈ passes → 0 ≤ v) : 0 ≤ amount c passes := by
  induction passes with
  | nil => exact Int.le_refl 0
  | cons pass passes ih =>
      have later := ih fun d v member => nonneg d v (List.mem_cons_of_mem _ member)
      cases pass with
      | none => exact later
      | some pass =>
          have here := nonneg pass.1 pass.2 List.mem_cons_self
          rw [amount]
          split <;> omega

theorem accept_of (f : Counter → Int) (v : Int) : (Totals.of f).accept (some (c, v)) =
    (addLong (f c) v).map fun sum => Totals.of (Function.update f c sum) := by
  cases c <;> rfl

theorem update_amount (f : Counter → Int) (v : Int) (passes : List (Option (Counter × Int))) (d : Counter) :
    Function.update f c (f c + v) d + amount d passes = f d + amount d (some (c, v) :: passes) := by
  rw [amount, Function.update_apply]
  by_cases same : d = c
  · rw [if_pos same, if_pos same.symm, same, Int.add_assoc]
  · rw [if_neg same, if_neg (Ne.symm same), Int.zero_add]

theorem update_bounds (f : Counter → Int) (start : ∀ d, 0 ≤ f d ∧ f d < 2 ^ 63) (v : Int)
    (positive : 0 ≤ v) (fits : f c + v < 2 ^ 63) (d : Counter) :
    0 ≤ Function.update f c (f c + v) d ∧ Function.update f c (f c + v) d < 2 ^ 63 := by
  rw [Function.update_apply]
  have low := (start c).1
  split
  · exact ⟨by omega, fits⟩
  · exact start d

/-- The run of the loop: it goes through when no sum leaves the range of `long`. -/
theorem accept_run (passes : List (Option (Counter × Int))) (nonneg : ∀ d v, some (d, v) ∈ passes → 0 ≤ v)
    (f : Counter → Int) (start : ∀ d, 0 ≤ f d ∧ f d < 2 ^ 63) (t : Totals) :
    passes.foldlM Totals.accept (Totals.of f) = some t ↔
      (∀ d, f d + amount d passes < 2 ^ 63) ∧ t = Totals.of fun d => f d + amount d passes := by
  induction passes generalizing f with
  | nil =>
      simp only [List.foldlM_nil, amount, Int.add_zero]
      constructor
      · rintro ⟨⟩
        exact ⟨fun d => (start d).2, rfl⟩
      · rintro ⟨-, rfl⟩
        rfl
  | cons pass passes ih =>
      have later : ∀ d v, some (d, v) ∈ passes → 0 ≤ v :=
        fun d v member => nonneg d v (List.mem_cons_of_mem _ member)
      cases pass with
      | none => exact ih later f start
      | some pass =>
          obtain ⟨c, v⟩ := pass
          have positive := nonneg c v List.mem_cons_self
          rw [List.foldlM_cons, accept_of, addLong]
          by_cases fits : f c + v < 2 ^ 63
          · have low := (start c).1
            rw [if_pos ⟨by omega, fits⟩, Option.map_some, Option.bind_eq_bind, Option.bind_some,
              ih later _ (update_bounds c f start v positive fits)]
            simp only [update_amount]
          · -- The overflow stops the loop, and later values do not bring the sum back.
            rw [if_neg fun within => fits within.2, Option.map_none]
            constructor
            · rintro ⟨⟩
            · rintro ⟨small, -⟩
              have rest := amount_nonneg c passes later
              have here := small c
              rw [amount, if_pos rfl] at here
              omega

theorem amount_expected (entry : Entry) : amount c (expected entry) = amount c [entry.counted] := by
  have nothing : ∀ rest : List (List Char), amount c (rest.map fun _ => none) = 0 := by
    intro rest
    induction rest with
    | nil => rfl
    | cons piece rest ih => exact ih
  have split : expected entry = [entry.counted] ++ (leftover entry).map fun _ => none := rfl
  rw [split, amount_append, nothing, Int.add_zero]

theorem amount_attribute (a : Attribute) : amount c [(attributeEntry a).counted] =
    if a.name = c.label then (a.value.value : Int) else 0 := by
  rw [attributeEntry]
  cases named : counterOf a.name with
  | none =>
      rw [if_neg (counterOf_none a.name named c)]
      rfl
  | some own =>
      have name := counterOf_some a.name own named
      rw [Option.map_some, amount, amount, Int.add_zero]
      by_cases same : own = c
      · rw [if_pos same, if_pos (name.trans (congrArg Counter.label same))]
      · rw [if_neg same, if_neg fun alike => same (label_injective own c (name.symm.trans alike))]

theorem amount_attributes (attributes : List Attribute) :
    amount c ((attributes.map attributeEntry).flatMap expected) =
      (((attributes.filter fun a => a.name = c.label).map fun a => a.value.value).sum : Nat) := by
  induction attributes with
  | nil => rfl
  | cons a attributes ih =>
      rw [List.map_cons, List.flatMap_cons, amount_append, amount_expected, amount_attribute, ih]
      rw [List.filter_cons]
      by_cases own : a.name = c.label
      · rw [if_pos own, if_pos (decide_eq_true own), List.map_cons, List.sum_cons, Int.natCast_add]
      · rw [if_neg own, if_neg (by simpa using own), Int.zero_add]

theorem amount_entries (r : Record) : amount c ((entries r).flatMap expected) =
    (((r.attributes.filter fun a => a.name = c.label).map fun a => a.value.value).sum : Nat) := by
  have header : amount c (expected (headerEntry r.header)) = 0 := by
    rw [amount_expected]
    rfl
  have flags : amount c ([flagsEntry r].flatMap expected) = 0 := by
    rw [List.flatMap_singleton, amount_expected]
    rfl
  rw [entries, List.flatMap_cons, List.flatMap_append, amount_append, amount_append, header, flags,
    amount_attributes, Int.zero_add, Int.add_zero]

theorem amount_records (records : List Record) :
    amount c ((records.flatMap entries).flatMap expected) = sumOf c records := by
  induction records with
  | nil => rfl
  | cons r records ih =>
      rw [List.flatMap_cons, List.flatMap_append, amount_append, ih, amount_entries, sumOf, sumOf,
        List.map_cons, List.sum_cons, Int.natCast_add]

end Sums

/-! The whole loop. -/

/-- No later piece of the line is read as a counter. -/
def Quiet (entry : Entry) : Prop := ∀ piece ∈ leftover entry, ∀ c, matched c piece = none

theorem contribution_none_iff (line : List Char) : contribution line = none ↔ ∀ c, matched c line = none := by
  rw [contribution, List.findSome?_eq_none_iff]
  simp only [Option.map_eq_none_iff]
  constructor
  · intro tests c
    exact tests c (by cases c <;> decide)
  · exact fun tests c _ => tests c

theorem record_text (r : Record) : r.text = (entries r).flatMap Entry.text := by
  simp [Record.text, entries, headerEntry, flagsEntry, attributeEntry, List.flatMap_map]

theorem smaps_text (records : List Record) :
    smapsText records = (records.flatMap entries).flatMap Entry.text := by
  rw [smapsText, List.flatMap_assoc]
  exact List.flatMap_congr fun r _ => record_text r

theorem aggregate_eq (text : List Char) : aggregate text =
    ((pieces 511 text).map contribution).foldlM Totals.accept (Totals.of fun _ => 0) := by
  rw [List.foldlM_map]
  rfl

theorem expected_nonneg (records : List Record) (c : Counter) (v : Int)
    (counted : some (c, v) ∈ (records.flatMap entries).flatMap expected) : 0 ≤ v := by
  obtain ⟨entry, inside, member⟩ := List.mem_flatMap.mp counted
  obtain ⟨r, -, ofRecord⟩ := List.mem_flatMap.mp inside
  rcases List.mem_cons.mp member with own | nothing
  · simp only [entries, List.mem_cons, List.mem_append, List.mem_map, List.mem_nil_iff, or_false] at ofRecord
    rcases ofRecord with rfl | ⟨a, -, rfl⟩ | rfl
    · cases own
    · obtain ⟨d, -, same⟩ := Option.map_eq_some_iff.mp own.symm
      rw [← (Prod.mk.inj same).2]
      exact Int.natCast_nonneg _
    · cases own
  · obtain ⟨piece, -, impossible⟩ := List.mem_map.mp nothing
    cases impossible

/-- The five sums are right exactly when no later piece of a line is read as one
of the attributes, and the sums fit a `long`. -/
theorem smaps_aggregated_iff (records : List Record) : Aggregated records ↔
    (∀ r ∈ records, ∀ entry ∈ entries r, Quiet entry) ∧ ∀ c, sumOf c records < 2 ^ 63 := by
  have contributions : (pieces 511 (smapsText records)).map contribution =
      (records.flatMap entries).flatMap expected ↔ ∀ r ∈ records, ∀ entry ∈ entries r, Quiet entry := by
    rw [smaps_text]
    refine (read_lines_iff 510 contribution Entry.counted Entry.text _ fun entry _ => entry.line).trans ?_
    rw [List.forall_mem_flatMap]
    refine forall₂_congr fun r _ => forall₂_congr fun entry member => ?_
    rw [and_iff_right (contribution_first r entry member)]
    exact forall₂_congr fun piece _ => contribution_none_iff piece
  have totals : (pieces 511 (smapsText records)).map contribution =
      (records.flatMap entries).flatMap expected → ∀ t, aggregate (smapsText records) = some t ↔
        (∀ c, (sumOf c records : Int) < 2 ^ 63) ∧ t = Totals.of fun c => sumOf c records := by
    intro same t
    have run := accept_run _ (expected_nonneg records) (fun _ => 0) (fun _ => by decide) t
    simp only [amount_records, Int.zero_add] at run
    rw [aggregate_eq, same, run]
  constructor
  · rintro ⟨same, added⟩
    refine ⟨contributions.mp same, fun c => ?_⟩
    have fits := ((totals same _).mp added).1 c
    omega
  · rintro ⟨quiet, fits⟩
    have same := contributions.mpr quiet
    refine ⟨same, (totals same _).mpr ⟨fun c => ?_, rfl⟩⟩
    have small := fits c
    omega

/-- One page of a file whose path goes on after 511 characters of its line. -/
def deepPath : Record where
  header :=
    { start := ⟨"55d0c2e00000".toList, by decide, by decide, every (by decide)⟩
      fin := ⟨"55d0c2e01000".toList, by decide, by decide, every (by decide)⟩
      perms := "r--p".toList
      offset := ⟨"00003000".toList, by decide, by decide, every (by decide)⟩
      major := ⟨"08".toList, by decide, by decide, every (by decide)⟩
      minor := ⟨"01".toList, by decide, by decide, every (by decide)⟩
      inode := ⟨"42".toList, by decide, by decide, every (by decide)⟩
      pad := 25
      path := some ⟨'/' :: (List.replicate 217 ['d', '/']).flatten ++ "dd/Rss: 5 kB".toList,
        by decide, by decide +kernel, every (by decide +kernel), by rintro c ⟨⟩; rfl⟩
      increasing := by decide
      perms_length := by decide
      perms_plain := every (by decide)
      pad_le := by decide
      pad_path := fun _ => by decide }
  attributes := [⟨"Rss".toList, 17, ⟨"4".toList, by decide, by decide, every (by decide)⟩, true,
    by decide, every (by decide), by decide, by decide⟩]
  flags := " rd mr".toList
  flags_plain := every (by decide)

/-- The file is named `Rss: 5 kB`, and its name starts the second piece of the
header, so that 9 kB are counted where 4 are resident. -/
theorem deep_path_counted : aggregate (smapsText [deepPath]) = some ⟨9, 0, 0, 0, 0⟩ ∧
    sumOf .rss [deepPath] = 4 ∧ ¬ Aggregated [deepPath] := by
  have counted : aggregate (smapsText [deepPath]) = some ⟨9, 0, 0, 0, 0⟩ := by decide +kernel
  have resident : sumOf .rss [deepPath] = 4 := by decide +kernel
  refine ⟨counted, resident, fun aggregated => ?_⟩
  have sums := counted.symm.trans aggregated.totals
  rw [resident] at sums
  exact absurd (congrArg Totals.rss (Option.some.inj sums)) (by decide)

end LinuxMemory.ProcSmaps
