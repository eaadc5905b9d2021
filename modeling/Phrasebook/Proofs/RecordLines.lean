import Mathlib.Data.List.TakeWhile
import Phrasebook.Proofs.Contents
import Phrasebook.Proofs.Csv

/-!
The lines that the errors of a comma-separated text cite. A record is cited on the line on which
reading of it began, right behind the character that ended the record before. Blank lines, and the
line feed of a line end of two characters, are skipped only after that, so a record that follows any
of these is cited on too early a line.
-/

namespace Phrasebook

namespace Csv

/-- A record by its place in a text. -/
structure Row where
  /-- The text that the reader is done with when it goes on to the record. -/
  before : List Char
  /-- The line ends that stand between that text and the record. -/
  skipped : List Char
  fields : List String

namespace Row

def line (r : Row) : Nat := 1 + (r.before ++ r.skipped).count '\n'

/-- The line on which reading began. -/
def cited (r : Row) : Nat := 1 + r.before.count '\n'

def record (r : Row) : Record := ⟨r.cited, r.fields⟩

def key? (r : Row) : Option String :=
  match r.fields with
  | key :: _ => if Text.isBlankText key then none else some key
  | [] => none

def occurrence? (r : Row) : Option Occurrence := r.key?.map (⟨·, some r.cited⟩)

def fault? (r : Row) : Option EntryFault :=
  match r.fields with
  | key :: _ :: _ => if Text.isBlankText key then some .blankKey else none
  | fields => some (.columns fields.length)

theorem cited_eq_line_iff (r : Row) : r.cited = r.line ↔ '\n' ∉ r.skipped := by
  rw [cited, line, List.count_append, ← List.count_eq_zero]
  omega

end Row

/-- The rows of the text that is left behind `before`. -/
inductive RowsFrom : List Char → List Char → List Row → Prop
  | nil {before blank} : (∀ c ∈ blank, isLineEnd c = true) → RowsFrom before blank []
  | cons {before skipped spelled rest fs rows} :
      (∀ c ∈ skipped, isLineEnd c = true) →
      (∃ c cs, spelled = c :: cs ∧ isLineEnd c = false) →
      fields .start (spelled ++ rest) = (fs, rest) →
      RowsFrom (before ++ skipped ++ spelled ++ rest.take 1) (rest.drop 1) rows →
      RowsFrom before (skipped ++ spelled ++ rest) (⟨before, skipped, fs.map .ofList⟩ :: rows)

def Rows (text : List Char) (rows : List Row) : Prop :=
  ∃ mark cs, text = mark ++ cs ∧
    (mark = ['\uFEFF'] ∨ mark = [] ∧ cs.head? ≠ some '\uFEFF') ∧ RowsFrom mark cs rows

def IsSecond (rows : List Row) (key : String) (row : Row) : Prop :=
  ∃ earlier later, rows = earlier ++ row :: later ∧ row.key? = some key ∧
    (earlier.filterMap Row.key?).count key = 1

theorem fields_suffix (m : Mode) (cs : List Char) : (fields m cs).2 <:+ cs := by
  fun_induction fields m cs <;> simp_all [push_snd, List.suffix_cons_iff]

theorem fields_cons_suffix {c : Char} (h : isLineEnd c = false) (r : List Char) :
    (fields .start (c :: r)).2 <:+ r := by
  by_cases hquote : c = '"'
  · subst hquote
    exact fields_suffix .quoted r
  · by_cases hcomma : c = ','
    · subst hcomma
      exact fields_suffix .start r
    · have hstep : fields .start (c :: r) = push c (fields .bare r) := by
        simp [fields, hquote, hcomma, h]
      rw [hstep, push_snd]
      exact fields_suffix .bare r

theorem exists_skipped {cs : List Char} {c : Char} {r : List Char}
    (h : cs.dropWhile isLineEnd = c :: r) : ∃ skipped, cs = skipped ++ c :: r ∧
      (∀ d ∈ skipped, isLineEnd d = true) ∧ isLineEnd c = false := by
  refine ⟨cs.takeWhile isLineEnd, ?_, fun d hd => List.mem_takeWhile_imp hd, ?_⟩
  · rw [← h, List.takeWhile_append_dropWhile]
  · have hhead := List.head?_dropWhile_not isLineEnd cs
    rw [h] at hhead
    exact hhead

/-- The records of a text are its rows, each with the line on which reading began. -/
theorem exists_rowsFrom (before cs : List Char) : ∃ rows, RowsFrom before cs rows ∧
    records (1 + before.count '\n') cs = rows.map Row.record := by
  generalize hline : 1 + before.count '\n' = line
  fun_induction records line cs generalizing before with
  | case1 line cs h => exact ⟨[], .nil (List.dropWhile_eq_nil_iff.1 h), rfl⟩
  | case2 line cs c r h record rest ih =>
    obtain ⟨skipped, hcs, hskipped, hc⟩ := exists_skipped h
    obtain ⟨spelled, hspelled⟩ := fields_cons_suffix hc r
    have htext : cs = skipped ++ (c :: spelled) ++ record.2 := by
      rw [hcs, List.append_assoc, List.cons_append, hspelled]
    have hfields : fields .start (c :: spelled ++ record.2) = (record.1, record.2) := by
      rw [List.cons_append, hspelled]
    -- All that was read of the text has been counted, so the next record begins on its line.
    have hcount : 1 + (before ++ skipped ++ (c :: spelled) ++ record.2.take 1).count '\n' =
        line + (cs.count '\n' - rest.count '\n') := by
      have hrest : record.2.count '\n' = (record.2.take 1).count '\n' + rest.count '\n' := by
        rw [← List.count_append, List.take_append_drop]
      rw [htext, ← hline]
      simp only [List.count_append, hrest]
      omega
    obtain ⟨rows, hrows, hrecords⟩ := ih _ hcount
    refine ⟨⟨before, skipped, record.1.map .ofList⟩ :: rows, ?_, ?_⟩
    · rw [htext]
      exact .cons hskipped ⟨c, spelled, rfl, hc⟩ hfields hrows
    · rw [hrecords, List.map_cons, Row.record, Row.cited, hline]

theorem not_blank_of_spelled {spelled : List Char}
    (hspelled : ∃ c cs, spelled = c :: cs ∧ isLineEnd c = false) (skipped rest : List Char) :
    ¬∀ c ∈ skipped ++ spelled ++ rest, isLineEnd c = true := by
  obtain ⟨c, cs, rfl, hc⟩ := hspelled
  intro hblank
  exact absurd (hblank c (by simp)) (by simp [hc])

theorem takeWhile_skipped {skipped spelled : List Char}
    (hskipped : ∀ c ∈ skipped, isLineEnd c = true)
    (hspelled : ∃ c cs, spelled = c :: cs ∧ isLineEnd c = false) (rest : List Char) :
    (skipped ++ spelled ++ rest).takeWhile isLineEnd = skipped := by
  obtain ⟨c, cs, rfl, hc⟩ := hspelled
  rw [List.append_assoc, List.takeWhile_append_of_pos hskipped, List.cons_append,
    List.takeWhile_cons_of_neg (by simp [hc]), List.append_nil]

theorem RowsFrom.unique {before cs : List Char} {rows rows' : List Row}
    (h : RowsFrom before cs rows) (h' : RowsFrom before cs rows') : rows = rows' := by
  induction h generalizing rows' with
  | nil hblank =>
    cases h' with
    | nil _ => rfl
    | cons _ hspelled _ _ => exact absurd hblank (not_blank_of_spelled hspelled _ _)
  | @cons before skipped spelled rest fs rows hskipped hspelled hfields _ ih =>
    generalize htext : skipped ++ spelled ++ rest = cs at h'
    cases h' with
    | nil hblank => exact absurd (htext ▸ hblank) (not_blank_of_spelled hspelled _ _)
    | @cons _ skipped' spelled' rest' fs' rows' hskipped' hspelled' hfields' hrows' =>
      obtain rfl : skipped = skipped' := by
        rw [← takeWhile_skipped hskipped hspelled rest, htext,
          takeWhile_skipped hskipped' hspelled' rest']
      rw [List.append_assoc, List.append_assoc, List.append_cancel_left_eq] at htext
      obtain ⟨rfl, rfl⟩ : fs = fs' ∧ rest = rest' := by
        rw [← Prod.mk.injEq, ← hfields, ← hfields', htext]
      obtain rfl := List.append_cancel_right htext
      rw [ih hrows']

theorem exists_rows (text : List Char) :
    ∃ rows, Rows text rows ∧ parse text = rows.map Row.record := by
  unfold parse
  split
  · next cs =>
    obtain ⟨rows, hrows, hrecords⟩ := exists_rowsFrom ['\uFEFF'] cs
    exact ⟨rows, ⟨_, cs, rfl, .inl rfl, hrows⟩, hrecords⟩
  · next hmark =>
    obtain ⟨rows, hrows, hrecords⟩ := exists_rowsFrom [] text
    refine ⟨rows, ⟨[], text, rfl, .inr ⟨rfl, ?_⟩, hrows⟩, hrecords⟩
    intro hhead
    obtain ⟨cs, rfl⟩ := List.head?_eq_some_iff.1 hhead
    exact hmark cs rfl

theorem Rows.unique {text : List Char} {rows rows' : List Row} (h : Rows text rows)
    (h' : Rows text rows') : rows = rows' := by
  obtain ⟨mark, cs, rfl, hmark, hrows⟩ := h
  obtain ⟨mark', cs', heq, hmark', hrows'⟩ := h'
  rcases hmark with rfl | ⟨rfl, hhead⟩ <;> rcases hmark' with rfl | ⟨rfl, hhead'⟩
  · cases heq
    exact hrows.unique hrows'
  · rw [List.nil_append] at heq
    exact absurd (heq ▸ rfl) hhead'
  · rw [List.nil_append] at heq
    exact absurd (heq ▸ rfl) hhead
  · cases heq
    exact hrows.unique hrows'

end Csv

namespace Contents

theorem error?_ofRecord (path : Path) (row : Csv.Row) : (ofRecord path row.record).error? =
    row.fault?.map (.unusableRow path (some row.cited)) := by
  obtain ⟨before, skipped, fields⟩ := row
  match fields with
  | [] => rfl
  | [key] =>
    simp only [ofRecord, Csv.Row.record, Csv.Row.fault?]
    split <;> rfl
  | key :: _ :: _ =>
    simp only [ofRecord, Csv.Row.record, Csv.Row.fault?]
    split <;> rfl

theorem occurrence?_ofRecord (path : Path) (row : Csv.Row) :
    (ofRecord path row.record).occurrence? = row.occurrence? := by
  obtain ⟨before, skipped, fields⟩ := row
  match fields with
  | [] => rfl
  | [key] =>
    simp only [ofRecord, Csv.Row.record, Csv.Row.occurrence?, Csv.Row.key?]
    split <;> rfl
  | key :: _ :: _ =>
    simp only [ofRecord, Csv.Row.record, Csv.Row.occurrence?, Csv.Row.key?]
    split <;> rfl

end Contents

namespace Csv

structure Cites (path : Path) (rows : List Row) (errors : List Error) : Prop where
  unusable : ∀ {line fault}, .unusableRow path line fault ∈ errors ↔
    ∃ row ∈ rows, row.fault? = some fault ∧ line = some row.cited
  duplicate : ∀ {key line}, .duplicateKey path key line ∈ errors ↔
    ∃ row, IsSecond rows key row ∧ line = some row.cited
  exact_iff : ∀ row ∈ rows, row.cited = row.line ↔ '\n' ∉ row.skipped

theorem map_key_occurrences (rows : List Row) :
    (rows.filterMap Row.occurrence?).map (·.key) = rows.filterMap Row.key? := by
  rw [List.map_filterMap]
  congr 1
  funext row
  rw [Row.occurrence?, Option.map_map]
  exact Option.map_id'

theorem isSecond_iff {rows : List Row} {key : String} {line : Option Nat} :
    ⟨key, line⟩ ∈ Contents.repeated [] (rows.filterMap Row.occurrence?) ↔
      ∃ row, IsSecond rows key row ∧ line = some row.cited := by
  rw [Contents.mem_repeated_iff]
  constructor
  · rintro ⟨earlier, later, hsplit, hcount⟩
    obtain ⟨front, back, rfl, rfl, hback⟩ := List.filterMap_eq_append_iff.1 hsplit
    obtain ⟨between, row, rest, rfl, hnone, hrow, -⟩ := List.filterMap_eq_cons_iff.1 hback
    obtain ⟨_, hkey, heq⟩ := Option.map_eq_some_iff.1 hrow
    cases heq
    refine ⟨row, ⟨front ++ between, rest, by rw [List.append_assoc], hkey, ?_⟩, rfl⟩
    have hbetween : between.filterMap Row.occurrence? = [] := List.filterMap_eq_nil_iff.2 hnone
    rw [← map_key_occurrences, List.filterMap_append, hbetween, List.append_nil]
    simpa using hcount
  · rintro ⟨row, ⟨earlier, later, rfl, hkey, hcount⟩, rfl⟩
    have hrow : row.occurrence? = some ⟨key, some row.cited⟩ := by
      rw [Row.occurrence?, hkey, Option.map_some]
    refine ⟨earlier.filterMap Row.occurrence?, later.filterMap Row.occurrence?, ?_, ?_⟩
    · rw [List.filterMap_append, List.filterMap_cons_some hrow]
    · rw [map_key_occurrences, hcount]
      rfl

/-- Every text has rows, and its errors cite the lines of these but for the line feeds that are
skipped right before a row. -/
theorem line_of_error (path : Path) (text : String) : ∃ c, Format.csv.parse path text = .ok c ∧
    (∃ rows, Rows text.toList rows) ∧
      ∀ rows, Rows text.toList rows → Cites path rows c.errors := by
  obtain ⟨rows, hrows, hparse⟩ := exists_rows text.toList
  refine ⟨_, rfl, ⟨rows, hrows⟩, ?_⟩
  intro rows' hrows'
  obtain rfl := hrows.unique hrows'
  have herrors : ((parse text.toList).map (Contents.ofRecord path)).filterMap Outcome.error? =
      rows.filterMap fun row => row.fault?.map (.unusableRow path (some row.cited)) := by
    rw [hparse, List.filterMap_map, List.filterMap_map]
    exact List.filterMap_congr fun row _ => Contents.error?_ofRecord path row
  have hoccurrences : ((parse text.toList).map (Contents.ofRecord path)).filterMap
      Outcome.occurrence? = rows.filterMap Row.occurrence? := by
    rw [hparse, List.filterMap_map, List.filterMap_map]
    exact List.filterMap_congr fun row _ => Contents.occurrence?_ofRecord path row
  rw [Contents.ofOutcomes, herrors, hoccurrences]
  constructor
  case unusable =>
    intro line fault
    rw [List.mem_append]
    constructor
    · rintro (hmem | hmem)
      · obtain ⟨row, hrow, herror⟩ := List.mem_filterMap.1 hmem
        obtain ⟨_, hfault, heq⟩ := Option.map_eq_some_iff.1 herror
        cases heq
        exact ⟨row, hrow, hfault, rfl⟩
      · obtain ⟨_, -, heq⟩ := List.mem_map.1 hmem
        cases heq
    · rintro ⟨row, hrow, hfault, rfl⟩
      exact .inl (List.mem_filterMap.2 ⟨row, hrow, by rw [hfault, Option.map_some]⟩)
  case duplicate =>
    intro key line
    rw [List.mem_append, ← isSecond_iff]
    constructor
    · rintro (hmem | hmem)
      · obtain ⟨_, -, herror⟩ := List.mem_filterMap.1 hmem
        obtain ⟨_, -, heq⟩ := Option.map_eq_some_iff.1 herror
        cases heq
      · obtain ⟨⟨_, _⟩, ho, heq⟩ := List.mem_map.1 hmem
        cases heq
        exact ho
    · intro ho
      exact .inr (List.mem_map.2 ⟨_, ho, rfl⟩)
  case exact_iff => exact fun row _ => row.cited_eq_line_iff

def Row.samples : List Row :=
  [⟨[], [], ["a", "1"]⟩, ⟨['a', ',', '1', '\r'], ['\n'], ["b"]⟩]

theorem rows_samples : Rows "a,1\r\nb\r\n".toList Row.samples := by
  have hlast : RowsFrom ['a', ',', '1', '\r'] ['\n', 'b', '\r', '\n']
      [⟨['a', ',', '1', '\r'], ['\n'], ["b"]⟩] :=
    @RowsFrom.cons _ ['\n'] ['b'] ['\r', '\n'] _ _
      (by simp [isLineEnd]) ⟨'b', [], rfl, by decide⟩ rfl (.nil (by simp [isLineEnd]))
  have hall : RowsFrom [] ['a', ',', '1', '\r', '\n', 'b', '\r', '\n'] Row.samples :=
    @RowsFrom.cons _ [] ['a', ',', '1'] ['\r', '\n', 'b', '\r', '\n'] _ _
      (List.forall_mem_nil _) ⟨'a', [',', '1'], rfl, by decide⟩ rfl hlast
  exact ⟨[], _, rfl, .inr ⟨rfl, by decide⟩, hall⟩

theorem exists_error_on_other_line : ¬∀ (path : Path) (text : String) (c : Contents)
    (rows : List Row), Format.csv.parse path text = .ok c → Rows text.toList rows →
      ∀ line fault, .unusableRow path line fault ∈ c.errors →
        ∃ row ∈ rows, row.fault? = some fault ∧ line = some row.line := by
  intro h
  have herror : Error.unusableRow (.ofString "T.en.csv") (some 1) (.columns 1) ∈
      (Contents.ofOutcomes (.ofString "T.en.csv")
        ((parse "a,1\r\nb\r\n".toList).map (Contents.ofRecord (.ofString "T.en.csv")))).errors := by
    decide +kernel
  obtain ⟨row, hrow, hfault, hline⟩ := h _ _ _ _ rfl rows_samples _ _ herror
  revert row
  decide

end Csv

end Phrasebook
