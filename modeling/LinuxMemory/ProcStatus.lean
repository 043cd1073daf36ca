import LinuxMemory.ProcText
import Mathlib.Data.List.Infix
import Mathlib.Data.List.TakeWhile

/-!
`/proc/meminfo` and `/proc/self/status`, rows of a key and a text behind its colon, and
the programs that look for keys in them: `01_meminfo.c` and `03_status_summary.c` print
the rows of a table, the others read the numbers of a few. All compare the start of
what one call of `fgets` returned, which need not be the start of a row.
-/

namespace LinuxMemory.ProcStatus

open Scanf Stdio ProcText

structure Row where
  key : List Char
  content : List Char
  key_plain : ∀ c ∈ key, c ≠ ':' ∧ c ≠ '\n' ∧ c.toNat ≠ 0
  content_plain : ∀ c ∈ content, c ≠ '\n' ∧ c.toNat ≠ 0

def Row.body (r : Row) : List Char := r.key ++ ':' :: r.content

def Row.text (r : Row) : List Char := r.body ++ ['\n']

def statusText (rows : List Row) : List Char := rows.flatMap Row.text

/-! The programs. `char line[256]` holds 255 characters. -/

def startsWith (line key : List Char) : Bool := key <+: line

def cut (line : List Char) : List Char := line.takeWhile fun c => c ≠ '\n'

structure Entry where
  key : List Char
  desc : List Char

/-- A key of the table is a name and a colon, and no longer than the buffer. -/
structure Summary where
  table : List Entry
  width : Nat
  narrow : width ≤ 255
  keyed : ∀ e ∈ table, ∃ name, e.key = name ++ [':'] ∧ ':' ∉ name ∧ '\n' ∉ name ∧ name.length < 255
  plain : ∀ e ∈ table, '\n' ∉ e.desc

def printRow (width : Nat) (line desc : List Char) : List Char :=
  [' ', ' '] ++ (line ++ List.replicate (width - line.length) ' ') ++ [' ', ' ', '-', '-', ' '] ++ desc ++
    ['\n']

/-- The inner loop, over the rest of the table. A match cuts the line for what follows. -/
def printEntries (width : Nat) : List Entry → List Char → List (List Char)
  | [], _ => []
  | e :: rest, line =>
      if startsWith line e.key then
        printRow width (cut line) e.desc :: printEntries width rest (cut line)
      else printEntries width rest line

def Summary.output (s : Summary) (text : List Char) : List Char :=
  ((pieces 255 text).flatMap (printEntries s.width s.table)).flatten

/-- What should be printed: the rows whose keys are in the table, whole. -/
def Summary.entriesOf (s : Summary) (r : Row) : List Entry :=
  s.table.filter fun e => e.key = r.key ++ [':']

def Summary.rowsOf (s : Summary) (rows : List Row) : List Char :=
  (rows.flatMap fun r => (s.entriesOf r).map fun e => printRow s.width r.body e.desc).flatten

/-! The two tables. -/

def entry (key desc : String) : Entry := ⟨key.toList, desc.toList⟩

def wanted : List Entry :=
  [entry "MemTotal:" "total usable RAM",
    entry "MemFree:" "untouched RAM (on buddy free lists)",
    entry "MemAvailable:" "what userspace could allocate without swap",
    entry "Buffers:" "page cache for raw block devices",
    entry "Cached:" "page cache for files (mmap + read)",
    entry "SwapTotal:" "size of swap",
    entry "SwapFree:" "unused swap",
    entry "Dirty:" "dirty pages (not yet written back)",
    entry "Writeback:" "pages being written back now",
    entry "AnonPages:" "non-file backed (heap/stack/anon mmap)",
    entry "Mapped:" "mapped via mmap",
    entry "Shmem:" "tmpfs + shared anon",
    entry "KReclaimable:" "slab/etc that could be reclaimed",
    entry "Slab:" "kernel slab (kmalloc internals)",
    entry "PageTables:" "memory used by page tables themselves",
    entry "CommitLimit:" "max committable bytes (overcommit_memory=2)",
    entry "Committed_AS:" "current committed memory",
    entry "HugePages_Total:" "huge pages reserved",
    entry "HugePages_Free:" "huge pages free",
    entry "Hugepagesize:" "huge page size"]

def statusEntries : List Entry :=
  [entry "VmPeak:" "peak VSZ since exec",
    entry "VmSize:" "current VSZ (sum of VMAs)",
    entry "VmLck:" "mlocked",
    entry "VmHWM:" "peak RSS since exec",
    entry "VmRSS:" "current resident set",
    entry "RssAnon:" "anon resident",
    entry "RssFile:" "file-backed resident",
    entry "RssShmem:" "shmem resident",
    entry "VmData:" "data segments (heap + bss)",
    entry "VmStk:" "main thread stack",
    entry "VmExe:" "text",
    entry "VmLib:" "shared libraries (text only)",
    entry "VmPTE:" "page tables themselves",
    entry "VmSwap:" "in swap",
    entry "Threads:" "thread count"]

theorem keyed_of_checked (table : List Entry) (checked : ∀ e ∈ table, e.key = e.key.dropLast ++ [':'] ∧
    ':' ∉ e.key.dropLast ∧ '\n' ∉ e.key.dropLast ∧ e.key.dropLast.length < 255) :
    ∀ e ∈ table, ∃ name, e.key = name ++ [':'] ∧ ':' ∉ name ∧ '\n' ∉ name ∧ name.length < 255 :=
  fun e listed => ⟨e.key.dropLast, checked e listed⟩

/-- `01_meminfo.c` -/
def meminfo : Summary where
  table := wanted
  width := 50
  narrow := by decide
  keyed := keyed_of_checked wanted (by decide +kernel)
  plain := by decide +kernel

/-- `03_status_summary.c` -/
def statusSummary : Summary where
  table := statusEntries
  width := 40
  narrow := by decide
  keyed := keyed_of_checked statusEntries (by decide +kernel)
  plain := by decide +kernel

/-! What a row starts with. -/

theorem Row.body_plain (r : Row) : '\n' ∉ r.body := by
  have key : '\n' ∉ r.key := fun member => (r.key_plain _ member).2.1 rfl
  have content : '\n' ∉ r.content := fun member => (r.content_plain _ member).1 rfl
  simp [Row.body, key, content]

theorem Row.line (r : Row) : Line r.text := ⟨r.body, rfl, r.body_plain⟩

theorem takeWhile_colon (name rest : List Char) (single : ':' ∉ name) :
    (name ++ ':' :: rest).takeWhile (fun c => c ≠ ':') = name := by
  have kept : ∀ c ∈ name, decide (c ≠ ':') = true := by
    intro c member
    exact decide_eq_true fun colon => single (colon ▸ member)
  rw [List.takeWhile_append_of_pos kept, List.takeWhile_cons_of_neg (by decide), List.append_nil]

theorem startsWith_body (r : Row) (name rest : List Char) (single : ':' ∉ name) :
    startsWith (r.body ++ rest) (name ++ [':']) = true ↔ name = r.key := by
  have key : ':' ∉ r.key := fun member => (r.key_plain _ member).1 rfl
  rw [startsWith, decide_eq_true_iff, Row.body, List.append_assoc, List.cons_append]
  constructor
  · rintro ⟨more, same⟩
    rw [List.append_assoc, List.singleton_append] at same
    have fronts := congrArg (List.takeWhile fun c => c ≠ ':') same
    rwa [takeWhile_colon _ _ single, takeWhile_colon _ _ key] at fronts
  · rintro rfl
    exact ⟨r.content ++ rest, by rw [List.append_assoc, List.singleton_append]⟩

theorem startsWith_take (line key : List Char) (short : key.length ≤ 255) :
    startsWith (line.take 255) key = startsWith line key := by
  rw [startsWith, startsWith]
  exact decide_eq_decide.mpr (by rw [List.prefix_take_iff]; exact and_iff_left short)

theorem startsWith_cut (line key : List Char) (plain : '\n' ∉ key) :
    startsWith (cut line) key = startsWith line key := by
  rw [startsWith, startsWith]
  apply decide_eq_decide.mpr
  constructor
  · exact fun starts => starts.trans (List.takeWhile_prefix _)
  · rintro ⟨rest, rfl⟩
    have kept : ∀ c ∈ key, decide (c ≠ '\n') = true := by
      intro c member
      exact decide_eq_true fun newline => plain (newline ▸ member)
    unfold cut
    rw [List.takeWhile_append_of_pos kept]
    exact List.prefix_append key _

theorem cut_plain (line : List Char) : '\n' ∉ cut line := by
  intro member
  have kept := List.mem_takeWhile_imp (p := fun c => decide (c ≠ '\n')) member
  exact absurd rfl (of_decide_eq_true kept)

theorem cut_row (r : Row) : cut (r.text.take 255) = r.body.take 255 := by
  have kept : ∀ c ∈ r.body.take 255, decide (c ≠ '\n') = true := by
    intro c member
    exact decide_eq_true fun newline => r.body_plain (newline ▸ List.mem_of_mem_take member)
  unfold cut Row.text
  rw [List.take_append, List.takeWhile_append_of_pos kept]
  cases 255 - r.body.length with
  | zero => simp
  | succ more => simp

/-! The table. -/

/-- Cutting the line does not change which keys it starts with. -/
theorem printEntries_eq (width : Nat) (table : List Entry) (line : List Char)
    (plain : ∀ e ∈ table, '\n' ∉ e.key) : printEntries width table line =
      (table.filter fun e => startsWith line e.key).map fun e => printRow width (cut line) e.desc := by
  induction table generalizing line with
  | nil => rfl
  | cons e rest ih =>
      have others : ∀ e ∈ rest, '\n' ∉ e.key := fun other member =>
        plain other (List.mem_cons_of_mem _ member)
      have again : cut (cut line) = cut line := List.takeWhile_idem
      rw [printEntries]
      simp only [List.filter_cons]
      by_cases starts : startsWith line e.key = true
      · have same : (rest.filter fun e => startsWith (cut line) e.key) =
            rest.filter fun e => startsWith line e.key :=
          List.filter_congr fun other member => startsWith_cut line other.key (others other member)
        rw [if_pos starts, if_pos starts, List.map_cons, ih _ others, again, same]
      · rw [if_neg starts, if_neg starts, ih _ others]

theorem Summary.key_plain (s : Summary) : ∀ e ∈ s.table, '\n' ∉ e.key := by
  intro e listed
  obtain ⟨name, shape, _, plain, _⟩ := s.keyed e listed
  simp [shape, plain]

/-- The entries for the piece that a row starts with are those of its key. -/
theorem Summary.entries_first (s : Summary) (r : Row) :
    (s.table.filter fun e => startsWith (r.text.take 255) e.key) = s.entriesOf r := by
  apply List.filter_congr
  intro e listed
  obtain ⟨name, shape, single, _, short⟩ := s.keyed e listed
  have length : e.key.length ≤ 255 := by
    rw [shape, List.length_append, List.length_singleton]
    exact short
  rw [startsWith_take _ _ length, shape, Bool.eq_iff_iff, Row.text, startsWith_body r name _ single,
    decide_eq_true_iff, List.append_left_inj]

theorem Summary.print_first (s : Summary) (r : Row) :
    printEntries s.width s.table (r.text.take 255) =
      (s.entriesOf r).map fun e => printRow s.width (r.body.take 255) e.desc := by
  rw [printEntries_eq _ _ _ s.key_plain, s.entries_first, cut_row]

theorem printRow_line (width : Nat) (line desc : List Char) (plain : '\n' ∉ line)
    (described : '\n' ∉ desc) : Line (printRow width line desc) := by
  refine ⟨_, rfl, ?_⟩
  simp [plain, described]

theorem printRow_take (width : Nat) (line desc : List Char) (narrow : width ≤ 255) :
    printRow width (line.take 255) desc = printRow width line desc ↔ line.length ≤ 255 := by
  constructor
  · intro same
    have lengths := congrArg List.length same
    simp only [printRow, List.length_append, List.length_take, List.length_replicate,
      List.length_cons, List.length_nil] at lengths
    omega
  · intro short
    rw [List.take_of_length_le short]

/-- A summary prints the rows of its table, each whole and once, exactly when those rows
fit the buffer and no row has a key of the table where a later call of `fgets` starts. -/
theorem summary_iff (s : Summary) (rows : List Row) : s.output (statusText rows) = s.rowsOf rows ↔
    ∀ r ∈ rows, (s.entriesOf r ≠ [] → r.body.length ≤ 255) ∧
      ∀ piece ∈ laterPieces 255 r.text, ∀ e ∈ s.table, startsWith piece e.key = false := by
  have lines := print_lines_iff 254 (printEntries s.width s.table)
    (fun r => (s.entriesOf r).map fun e => printRow s.width r.body e.desc) Row.text rows
    (fun r _ => r.line)
    (by
      intro r _
      rw [s.print_first, List.length_map, List.length_map])
    (by
      intro piece l printed
      rw [printEntries_eq _ _ _ s.key_plain] at printed
      obtain ⟨e, listed, rfl⟩ := List.mem_map.mp printed
      exact printRow_line _ _ _ (cut_plain piece) (s.plain e (List.mem_of_mem_filter listed)))
    (by
      intro r _ l owned
      obtain ⟨e, listed, rfl⟩ := List.mem_map.mp owned
      exact printRow_line _ _ _ r.body_plain (s.plain e (List.mem_of_mem_filter listed)))
  refine lines.trans (forall₂_congr fun r _ => and_congr ?_ (forall₂_congr fun piece _ => ?_))
  · rw [s.print_first, List.map_inj_left]
    constructor
    · intro whole wanted
      obtain ⟨e, listed⟩ := List.exists_mem_of_ne_nil _ wanted
      exact (printRow_take _ _ _ s.narrow).mp (whole e listed)
    · intro whole e listed
      exact (printRow_take _ _ _ s.narrow).mpr (whole (List.ne_nil_of_mem listed))
  · rw [printEntries_eq _ _ _ s.key_plain, List.map_eq_nil_iff, List.filter_eq_nil_iff]
    simp only [Bool.not_eq_true]

/-! The programs that read numbers: `show` of `02_lazy_allocation.c`, `13_malloc_trim.c`
and `02_mlock.c`, `rss_kib` of `06_madvise_dontneed.c` and `rss` of `03_madvise_pageout.c`. -/

/-- `if (!strncmp(line, key, strlen(key))) sscanf(line + strlen(key), "%ld", &value)`. -/
def readValue (key : List Char) (value : Int) (line : List Char) : Int :=
  if startsWith line key then
    match sscanf [.signed] (line.drop key.length) with
    | .signed read :: _ => read
    | _ => value
  else value

def readValues (keys : List (List Char)) (text : List Char) : List Int :=
  (pieces 255 text).foldl
    (fun values line => List.zipWith (fun key value => readValue key value line) keys values)
    (keys.map fun _ => 0)

def lazyShow (text : List Char) : List Int := readValues ["VmSize:".toList, "VmRSS:".toList] text

def trimShow (text : List Char) : List Int := readValues ["VmSize:".toList, "VmRSS:".toList] text

def mlockShow (text : List Char) : List Int := readValues ["VmLck:".toList, "VmRSS:".toList] text

def rssKib (text : List Char) : List Int := readValues ["VmRSS:".toList] text

def Row.amount (r : Row) : Nat := value 10 ((skipBlanks r.content).takeWhile (isDigit 10))

def Row.Quantity (r : Row) : Prop :=
  ∃ blanks digits, r.content = blanks ++ (digits ++ [' ', 'k', 'B']) ∧ (∀ c ∈ blanks, isSpace c) ∧
    digits ≠ [] ∧ (∀ c ∈ digits, isDigit 10 c) ∧ value 10 digits < 2 ^ 63

theorem Row.Quantity.read {r : Row} (quantity : r.Quantity) (rest : List Char) :
    sscanf [.signed] (r.content ++ rest) = [.signed r.amount] := by
  obtain ⟨blanks, digits, shape, spaces, nonempty, all, fits⟩ := quantity
  have behind (rest : List Char) : Behind 10 (' ' :: rest) := behind_cons rfl (by decide) (by decide)
  have amount : r.amount = value 10 digits := by
    rw [Row.amount, shape, skipBlanks_append blanks spaces,
      skipBlanks_digits (by decide) nonempty all, (digits_end all (behind _)).1]
  have skipped (text : List Char) : sscanf [.signed] (blanks ++ text) = sscanf [.signed] text := by
    simp only [sscanf, Directive.convert, integer, skipBlanks_append blanks spaces]
  have read : sscanf [.signed] (digits ++ ' ' :: 'k' :: 'B' :: rest) = [.signed (value 10 digits)] :=
    sscanf_signed nonempty all (behind _) fits
  rw [shape, List.append_assoc, List.append_assoc, skipped, amount]
  exact read

theorem foldl_zipWith {α β γ : Type} (f : α → β → γ → β) (start : α → β) (keys : List α)
    (lines : List γ) :
    lines.foldl (fun values line => List.zipWith (fun key value => f key value line) keys values)
      (keys.map start) = keys.map fun key => lines.foldl (f key) (start key) := by
  induction lines generalizing start with
  | nil => rfl
  | cons line lines ih =>
      rw [List.foldl_cons, List.zipWith_map_right, List.zipWith_self, ih fun key => f key (start key) line]
      rfl

theorem readValue_other (key : List Char) (before : Int) (line : List Char)
    (other : startsWith line key = false) : readValue key before line = before := by
  simp [readValue, other]

theorem readValue_row (r : Row) (name : List Char) (before : Int) (single : ':' ∉ name)
    (short : name.length < 255) (fits : name = r.key → r.body.length ≤ 255 ∧ r.Quantity) :
    readValue (name ++ [':']) before (r.text.take 255) =
      if r.key = name then (r.amount : Int) else before := by
  have starts : startsWith (r.text.take 255) (name ++ [':']) = true ↔ name = r.key := by
    rw [startsWith_take _ _ (by rw [List.length_append]; exact short), Row.text,
      startsWith_body r name _ single]
  by_cases own : name = r.key
  · obtain ⟨room, quantity⟩ := fits own
    have behind : (r.text.take 255).drop (name ++ [':']).length =
        r.content ++ ['\n'].take (255 - r.body.length) := by
      have front : r.body = (name ++ [':']) ++ r.content := by rw [own, Row.body]; simp
      rw [Row.text, List.take_append, List.take_of_length_le room]
      nth_rewrite 1 [front]
      rw [List.append_assoc, List.drop_left]
    rw [readValue, if_pos (starts.mpr own), behind, quantity.read, if_pos own.symm]
  · rw [if_neg (Ne.symm own)]
    exact readValue_other _ _ _ (Bool.eq_false_iff.mpr fun begun => own (starts.mp begun))

theorem foldl_others (key : List Char) (before : Int) (lines : List (List Char))
    (others : ∀ line ∈ lines, startsWith line key = false) :
    lines.foldl (readValue key) before = before := by
  induction lines with
  | nil => rfl
  | cons line lines ih =>
      rw [List.forall_mem_cons] at others
      rw [List.foldl_cons, readValue_other key before line others.1, ih others.2]

theorem foldl_rows (name : List Char) (rows : List Row) (before : Int) (single : ':' ∉ name)
    (short : name.length < 255) (distinct : (rows.map Row.key).Nodup)
    (fits : ∀ r ∈ rows, name = r.key → r.body.length ≤ 255 ∧ r.Quantity)
    (clear : ∀ r ∈ rows, ∀ piece ∈ laterPieces 255 r.text, startsWith piece (name ++ [':']) = false) :
    (rows.flatMap fun r => r.text.take 255 :: laterPieces 255 r.text).foldl
        (readValue (name ++ [':'])) before =
      ((rows.find? fun r => r.key = name).map fun r => (r.amount : Int)).getD before := by
  induction rows generalizing before with
  | nil => rfl
  | cons r rows ih =>
      rw [List.forall_mem_cons] at fits clear
      rw [List.map_cons, List.nodup_cons] at distinct
      rw [List.flatMap_cons, List.foldl_append, List.foldl_cons,
        readValue_row r name before single short fits.1, foldl_others _ _ _ clear.1,
        ih _ distinct.2 fits.2 clear.2, List.find?_cons]
      by_cases own : r.key = name
      · have none : (rows.find? fun r => r.key = name) = none := by
          rw [List.find?_eq_none]
          intro other member same
          exact distinct.1 (List.mem_map.mpr ⟨other, member, (of_decide_eq_true same).trans own.symm⟩)
        simp [own, none]
      · simp [own]

/-- Each variable ends with the amount of the row of its key, and with 0 where there is
none, if these rows fit the buffer and no key stands where a later call of `fgets` starts. -/
theorem values_read (names : List (List Char)) (rows : List Row)
    (keyed : ∀ name ∈ names, ':' ∉ name ∧ name.length < 255) (distinct : (rows.map Row.key).Nodup)
    (fits : ∀ r ∈ rows, r.key ∈ names → r.body.length ≤ 255 ∧ r.Quantity)
    (clear : ∀ r ∈ rows, ∀ piece ∈ laterPieces 255 r.text, ∀ name ∈ names,
      startsWith piece (name ++ [':']) = false) :
    readValues (names.map fun name => name ++ [':']) (statusText rows) = names.map fun name =>
      ((rows.find? fun r => r.key = name).map fun r => (r.amount : Int)).getD 0 := by
  rw [readValues, foldl_zipWith, List.map_map]
  apply List.map_congr_left
  intro name listed
  have lines := pieces_lines 254 Row.text rows fun r _ => r.line
  dsimp only [Function.comp]
  rw [statusText, lines]
  exact foldl_rows name rows 0 (keyed name listed).1 (keyed name listed).2 distinct
    (fun r member own => fits r member (own ▸ listed))
    (fun r member piece inside => clear r member piece inside name listed)

def nameRow : Row := ⟨"Name".toList, "\t02_lazy".toList, every (by decide), every (by decide)⟩

def sizeRow : Row := ⟨"VmSize".toList, "\t    2680 kB".toList, every (by decide), every (by decide)⟩

theorem values_read_lazy : lazyShow (statusText [nameRow, sizeRow]) = [2680, 0] := by
  have short (r : Row) (room : r.text.length ≤ 255) : laterPieces 255 r.text = [] := by
    rw [laterPieces, List.drop_of_length_le room, pieces_nil]
  have later : ∀ r ∈ [nameRow, sizeRow], laterPieces 255 r.text = [] := by
    intro r member
    rcases List.mem_pair.mp member with rfl | rfl <;> exact short _ (by decide)
  refine (values_read ["VmSize".toList, "VmRSS".toList] [nameRow, sizeRow] (by decide)
    (by decide) ?_ ?_).trans (by decide)
  · intro r member wanted
    rcases List.mem_pair.mp member with rfl | rfl
    · exact absurd wanted (by decide)
    · refine ⟨by decide, "\t    ".toList, "2680".toList, by decide, every (by decide), by decide,
        every (by decide), by decide⟩
  · intro r member piece inside
    rw [later r member] at inside
    exact absurd inside List.not_mem_nil

end LinuxMemory.ProcStatus
