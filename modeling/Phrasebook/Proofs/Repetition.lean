import Mathlib.Data.List.Induction
import Phrasebook.Proofs.RecordLines
import Phrasebook.Proofs.Tree

/-!
Repeated keys. A text shows items in order, which are the members of its object or its rows. Each of
them is accepted or leaves one error. An entry is kept only if its key occurs once, and any key that
occurs more often is reported once, in its second place. Blank keys take no part in this.
-/

namespace Phrasebook

inductive Item
  | member : String → Json.Value → Item
  | row : Csv.Row → Item

namespace Item

def key? : Item → Option String
  | member name _ => if Text.isBlankText name then none else some name
  | row r => r.key?

def line? : Item → Option Nat
  | member .. => none
  | row r => some r.cited

def text? : Item → Option String
  | member _ v => v.scalarText?
  | row r => r.fields[1]?

def pair : Item → Option String × Option String
  | member name v => (some name, v.scalarText?)
  | row r => (r.fields[0]?, r.fields[1]?)

def accepted? (i : Item) : Option Entry := i.key?.bind fun key => i.text?.map (⟨key, ·⟩)

def error? (path : Path) : Item → Option Error
  | member name v =>
    if Text.isBlankText name then some (.unusableRow path none .blankKey)
    else if v.scalarText?.isNone then some (.invalidValue path name v.kind)
    else none
  | row r => r.fault?.map (.unusableRow path (some r.cited))

def occurrence? (i : Item) : Option Occurrence := i.key?.map (⟨·, i.line?⟩)

def duplicate? (path : Path) (i : Item) : Option Error :=
  i.key?.map (.duplicateKey path · i.line?)

def keys (items : List Item) : List String := items.filterMap key?

/-- The places at which a key occurs for the second time, in order. -/
def seconds (items : List Item) : List Nat :=
  (List.range items.length).filter fun n =>
    (items[n]?.bind key?).any fun key => (keys (items.take n)).count key = 1

end Item

/-- How a text of a format shows its items. -/
inductive Format.Shows : Format → String → List Item → Prop
  | members {text ms vs} : Json.DocumentSpelling (.object ms) text.toList →
      Json.Tree.documentMembers? ms = some vs → Shows .json text (vs.map fun m => .member m.1 m.2)
  | rows {text rows} : Csv.Rows text.toList rows → Shows .csv text (rows.map .row)

def Error.duplicated? : Error → Option String
  | duplicateKey _ key _ => some key
  | _ => none

/-- What becomes of items. -/
structure Sorts (path : Path) (items : List Item) (c : Contents) : Prop where
  entries : c.entries = (items.filterMap Item.accepted?).filter fun e =>
    (Item.keys items).count e.key = 1
  distinct : (c.entries.map (·.key)).Nodup
  accepted_or_error : ∀ i ∈ items, i.accepted?.isSome = (i.error? path).isNone
  errors : c.errors = items.filterMap (Item.error? path) ++
    (Item.seconds items).filterMap fun n => items[n]?.bind (Item.duplicate? path)
  reported_once : ∀ key, (c.errors.filterMap Error.duplicated?).count key =
    if 2 ≤ (Item.keys items).count key then 1 else 0
  not_blank : ∀ key ∈ c.errors.filterMap Error.duplicated?, Text.isBlankText key = false

namespace Contents

theorem repeated_append (seen : List String) (os os' : List Occurrence) :
    repeated seen (os ++ os') =
      repeated seen os ++ repeated ((os.map (·.key)).reverse ++ seen) os' := by
  induction os generalizing seen with
  | nil => rfl
  | cons o os ih =>
    rw [List.cons_append, repeated, repeated, ih, List.map_cons, List.reverse_cons,
      List.append_assoc, List.singleton_append]
    split <;> rfl

theorem count_repeated (seen : List String) (os : List Occurrence) (key : String) :
    ((repeated seen os).map (·.key)).count key =
      if seen.count key ≤ 1 ∧ 2 ≤ seen.count key + (os.map (·.key)).count key then 1 else 0 := by
  induction os generalizing seen with
  | nil =>
    have hnone : ¬(seen.count key ≤ 1 ∧ 2 ≤ seen.count key + 0) := by omega
    rw [List.map_nil, List.count_nil, if_neg hnone]
    rfl
  | cons o os ih =>
    have hlater := ih (o.key :: seen)
    rw [repeated, List.map_cons]
    by_cases hkey : o.key = key
    · subst hkey
      rw [List.count_cons_self] at hlater ⊢
      split
      · next hone =>
        rw [List.map_cons, List.count_cons_self, hlater, if_neg (by omega), if_pos (by omega)]
      · next hone =>
        rw [hlater]
        congr 1
        rw [eq_iff_iff]
        omega
    · rw [List.count_cons_of_ne hkey] at hlater ⊢
      split
      · rw [List.map_cons, List.count_cons_of_ne hkey, hlater]
      · exact hlater

end Contents

namespace Item

def outcome (path : Path) : Item → Outcome
  | member name v => Contents.ofMember path (name, v)
  | row r => Contents.ofRecord path r.record

theorem occurrence?_outcome (path : Path) (i : Item) :
    (i.outcome path).occurrence? = i.occurrence? := by
  cases i with
  | member name v =>
    simp only [outcome, Contents.ofMember, occurrence?, key?]
    split
    · rfl
    · cases v.scalarText? <;> rfl
  | row r => exact Contents.occurrence?_ofRecord path r

theorem error?_outcome (path : Path) (i : Item) : (i.outcome path).error? = i.error? path := by
  cases i with
  | member name v =>
    simp only [outcome, Contents.ofMember, error?]
    split
    · rfl
    · cases v.scalarText? <;> rfl
  | row r => exact Contents.error?_ofRecord path r

theorem accepted?_outcome (path : Path) (i : Item) :
    Outcome.entry? (i.outcome path) = i.accepted? := by
  cases i with
  | member name v =>
    simp only [outcome, Contents.ofMember, accepted?, key?, text?]
    split
    · rfl
    · cases v.scalarText? <;> rfl
  | row r =>
    obtain ⟨before, skipped, _ | ⟨key, _ | ⟨value, fields⟩⟩⟩ := r
    · rfl
    all_goals
      simp only [outcome, Contents.ofRecord, Csv.Row.record, accepted?, key?, Csv.Row.key?, text?]
      split <;> rfl

/-- An item that is not accepted leaves an error, and no other does. -/
theorem isSome_accepted? (path : Path) (i : Item) :
    i.accepted?.isSome = (i.error? path).isNone := by
  cases i with
  | member name v =>
    simp only [accepted?, error?, key?, text?]
    split
    · rfl
    · cases v.scalarText? <;> rfl
  | row r =>
    obtain ⟨before, skipped, _ | ⟨key, _ | ⟨value, fields⟩⟩⟩ := r
    · rfl
    all_goals
      simp only [accepted?, error?, key?, Csv.Row.key?, Csv.Row.fault?, text?]
      split <;> rfl

theorem duplicated?_of_error? {path : Path} {i : Item} {e : Error} (h : i.error? path = some e) :
    e.duplicated? = none := by
  cases i with
  | member name v =>
    simp only [error?] at h
    split at h
    · cases h
      rfl
    · split at h
      · cases h
        rfl
      · cases h
  | row r =>
    obtain ⟨fault, -, rfl⟩ := Option.map_eq_some_iff.1 h
    rfl

theorem not_blank_of_key? {i : Item} {key : String} (h : i.key? = some key) :
    Text.isBlankText key = false := by
  have given {name : String}
      (h : (if Text.isBlankText name then none else some name) = some key) :
      Text.isBlankText key = false := by
    split at h
    · cases h
    · next hblank =>
      cases h
      exact Bool.of_not_eq_true hblank
  cases i with
  | member name v => exact given h
  | row r =>
    obtain ⟨before, skipped, _ | ⟨name, fields⟩⟩ := r
    · cases h
    · exact given h

theorem map_key_occurrences (items : List Item) :
    (items.filterMap occurrence?).map (·.key) = keys items := by
  rw [List.map_filterMap, keys]
  refine List.filterMap_congr fun i _ => ?_
  rw [occurrence?, Option.map_map]
  exact Option.map_id'

theorem seconds_append (items : List Item) (x : Item) : seconds (items ++ [x]) =
    seconds items ++ if x.key?.any fun key => (keys items).count key = 1 then [items.length]
      else [] := by
  rw [seconds, List.length_append, List.length_singleton, List.range_succ, List.filter_append]
  congr 1
  · refine List.filter_congr fun n hn => ?_
    have hlt := List.mem_range.1 hn
    rw [List.getElem?_append_left hlt, List.take_append_of_le_length (Nat.le_of_lt hlt)]
  · rw [List.filter_cons, List.getElem?_concat_length, List.take_left]
    rfl

theorem mem_seconds {items : List Item} {n : Nat} (h : n ∈ seconds items) : n < items.length :=
  List.mem_range.1 (List.mem_filter.1 h).1

theorem repeated_occurrences (items : List Item) :
    Contents.repeated [] (items.filterMap occurrence?) =
      (seconds items).filterMap fun n => items[n]?.bind occurrence? := by
  induction items using List.reverseRecOn with
  | nil => rfl
  | append_singleton items x ih =>
    have hbefore : (seconds items).filterMap (fun n => (items ++ [x])[n]?.bind occurrence?) =
        (seconds items).filterMap fun n => items[n]?.bind occurrence? := by
      refine List.filterMap_congr fun n hn => ?_
      rw [List.getElem?_append_left (mem_seconds hn)]
    rw [List.filterMap_append, Contents.repeated_append, ih, seconds_append, List.filterMap_append,
      hbefore, List.append_nil, map_key_occurrences]
    congr 1
    cases hkey : x.key? with
    | none =>
      have hnone : occurrence? x = none := by rw [occurrence?, hkey, Option.map_none]
      rw [List.filterMap_cons_none hnone]
      rfl
    | some key =>
      have hsome : occurrence? x = some ⟨key, x.line?⟩ := by rw [occurrence?, hkey, Option.map_some]
      rw [List.filterMap_cons_some hsome, List.filterMap_nil, Contents.repeated, List.count_reverse]
      by_cases hone : (keys items).count key = 1
      · rw [if_pos hone, if_pos (by simpa using hone), List.filterMap_cons,
          List.getElem?_concat_length, Option.bind_some, hsome]
        rfl
      · rw [if_neg hone, if_neg (by simpa using hone)]
        rfl

end Item

namespace Contents

theorem sorts_ofOutcomes (path : Path) (items : List Item) :
    Sorts path items (.ofOutcomes path (items.map (Item.outcome path))) := by
  have hoccurrences : (items.map (Item.outcome path)).filterMap Outcome.occurrence? =
      items.filterMap Item.occurrence? := by
    rw [List.filterMap_map]
    exact List.filterMap_congr fun i _ => i.occurrence?_outcome path
  have hentries : (items.map (Item.outcome path)).filterMap Outcome.entry? =
      items.filterMap Item.accepted? := by
    rw [List.filterMap_map]
    exact List.filterMap_congr fun i _ => i.accepted?_outcome path
  have herrors : (Contents.ofOutcomes path (items.map (Item.outcome path))).errors =
      items.filterMap (Item.error? path) ++ (repeated [] (items.filterMap Item.occurrence?)).map
        fun o => .duplicateKey path o.key o.line := by
    have hrefused : (items.map (Item.outcome path)).filterMap Outcome.error? =
        items.filterMap (Item.error? path) := by
      rw [List.filterMap_map]
      exact List.filterMap_congr fun i _ => i.error?_outcome path
    rw [ofOutcomes, hoccurrences, hrefused]
  have hduplicates : (Contents.ofOutcomes path (items.map (Item.outcome path))).errors.filterMap
      Error.duplicated? = (repeated [] (items.filterMap Item.occurrence?)).map (·.key) := by
    have hnone : (items.filterMap (Item.error? path)).filterMap Error.duplicated? = [] := by
      rw [List.filterMap_eq_nil_iff]
      intro e he
      obtain ⟨i, -, hi⟩ := List.mem_filterMap.1 he
      exact Item.duplicated?_of_error? hi
    rw [herrors, List.filterMap_append, hnone, List.nil_append, List.filterMap_map,
      ← List.filterMap_eq_map]
    rfl
  constructor
  case entries => rw [ofOutcomes, hoccurrences, hentries, Item.map_key_occurrences]
  case distinct => exact nodup_keys_ofOutcomes path _
  case accepted_or_error => exact fun i _ => i.isSome_accepted? path
  case errors =>
    rw [herrors, Item.repeated_occurrences, List.map_filterMap]
    congr 1
    refine List.filterMap_congr fun n _ => ?_
    cases items[n]? with
    | none => rfl
    | some i =>
      rw [Option.bind_some, Option.bind_some, Item.occurrence?, Item.duplicate?, Option.map_map]
      rfl
  case reported_once =>
    intro key
    rw [hduplicates, count_repeated, Item.map_key_occurrences, List.count_nil, Nat.zero_add]
    congr 1
    rw [eq_iff_iff, and_iff_right (Nat.zero_le 1)]
  case not_blank =>
    intro key hkey
    rw [hduplicates] at hkey
    obtain ⟨o, ho, rfl⟩ := List.mem_map.1 hkey
    rw [Item.repeated_occurrences] at ho
    obtain ⟨n, -, hn⟩ := List.mem_filterMap.1 ho
    obtain ⟨i, -, hi⟩ := Option.bind_eq_some_iff.1 hn
    obtain ⟨name, hname, rfl⟩ := Option.map_eq_some_iff.1 hi
    exact Item.not_blank_of_key? hname

end Contents

theorem Sorts.accepted?_of_mem {path : Path} {items : List Item} {c : Contents}
    (h : Sorts path items c) {e : Entry} (he : e ∈ c.entries) {i : Item} (hi : i ∈ items)
    (hkey : i.key? = some e.key) : i.accepted? = some e := by
  rw [h.entries] at he
  obtain ⟨hmem, hone⟩ := List.mem_filter.1 he
  obtain ⟨j, hj, hentry⟩ := List.mem_filterMap.1 hmem
  have hkey' : j.key? = some e.key := by
    obtain ⟨key, hkey', htext⟩ := Option.bind_eq_some_iff.1 hentry
    obtain ⟨text, -, rfl⟩ := Option.map_eq_some_iff.1 htext
    exact hkey'
  obtain ⟨front, back, rfl⟩ := List.append_of_mem hj
  have hapart {l : List Item} (hl : i ∈ l) : 0 < (Item.keys l).count e.key :=
    List.count_pos_iff.2 (List.mem_filterMap.2 ⟨i, hl, hkey⟩)
  rw [decide_eq_true_eq, Item.keys, List.filterMap_append, List.filterMap_cons_some hkey',
    List.count_append, List.count_cons_self] at hone
  rcases List.mem_append.1 hi with hfront | hrest
  · have := hapart hfront
    rw [Item.keys] at this
    omega
  · rcases List.mem_cons.1 hrest with rfl | hback
    · exact hentry
    · have := hapart hback
      rw [Item.keys] at this
      omega

namespace Format

/-- A text has the pairs of its items, in their order. -/
theorem pairs_of_shows {format : Format} {text : String} {items : List Item}
    (h : format.Shows text items) : format.pairs text = items.map Item.pair := by
  cases h with
  | members hms hvs =>
    have hparse := (Json.toOption_parseObject hms).trans hvs
    cases hresult : Json.parseObject text.toList with
    | error e =>
      rw [hresult] at hparse
      cases hparse
    | ok vs =>
      rw [hresult] at hparse
      cases hparse
      simp only [pairs, hresult, List.map_map]
      rfl
  | rows hrows =>
    obtain ⟨rows, hrows', hparse⟩ := Csv.exists_rows text.toList
    cases hrows.unique hrows'
    rw [pairs, hparse, List.map_map, List.map_map]
    rfl

theorem parse_of_shows {format : Format} {text : String} {items : List Item}
    (h : format.Shows text items) (path : Path) :
    format.parse path text = .ok (.ofOutcomes path (items.map (Item.outcome path))) := by
  cases h with
  | members hms hvs =>
    have hparse := (Json.toOption_parseObject hms).trans hvs
    cases hresult : Json.parseObject text.toList with
    | error e =>
      rw [hresult] at hparse
      cases hparse
    | ok vs =>
      rw [hresult] at hparse
      cases hparse
      simp only [parse, hresult, List.map_map]
      rfl
  | rows hrows =>
    obtain ⟨rows, hrows', hparse⟩ := Csv.exists_rows text.toList
    cases hrows.unique hrows'
    rw [parse, hparse, List.map_map, List.map_map]
    rfl

theorem exists_items {format : Format} {path : Path} {text : String} {c : Contents}
    (h : format.parse path text = .ok c) : ∃ items, format.Shows text items := by
  cases format with
  | json =>
    simp only [parse] at h
    split at h
    · next vs hparse =>
      obtain ⟨ms, hms, hvs⟩ := Json.exists_of_parseObject hparse
      exact ⟨_, .members hms hvs⟩
    · cases h
  | csv =>
    obtain ⟨rows, hrows, -⟩ := Csv.exists_rows text.toList
    exact ⟨_, .rows hrows⟩

/-- Every text that is accepted shows items, and its contents are what becomes of them. -/
theorem sorts_of_parse {format : Format} {path : Path} {text : String} {c : Contents}
    (h : format.parse path text = .ok c) : (∃ items, format.Shows text items) ∧
      ∀ items, format.Shows text items → Sorts path items c := by
  refine ⟨exists_items h, fun items hitems => ?_⟩
  rw [parse_of_shows hitems path] at h
  cases h
  exact Contents.sorts_ofOutcomes path items

theorem parse_json_of_members {ms : List (List Json.Mark × Json.Tree)} {text : String}
    {vs : List (String × Json.Value)} (h : Json.DocumentSpelling (.object ms) text.toList)
    (hvs : Json.Tree.documentMembers? ms = some vs) (path : Path) :
    Format.json.parse path text =
      .ok (.ofOutcomes path ((vs.map fun m => Item.member m.1 m.2).map (Item.outcome path))) :=
  parse_of_shows (.members h hvs) path

theorem exists_members {path : Path} {ms : List (List Json.Mark × Json.Tree)} {text : String}
    {c : Contents} (h : Json.DocumentSpelling (.object ms) text.toList)
    (hparse : Format.json.parse path text = .ok c) :
    ∃ vs, Json.Tree.documentMembers? ms = some vs ∧
      Sorts path (vs.map fun m => .member m.1 m.2) c := by
  have hread := Json.toOption_parseObject h
  simp only [parse] at hparse
  split at hparse
  · next vs hvs =>
    rw [hvs] at hread
    refine ⟨vs, hread.symm, (sorts_of_parse ?_).2 _ (.members h hread.symm)⟩
    rw [parse, hvs]
    exact hparse
  · cases hparse

def repeatingText : String :=
  "\x7b\"a\":\"1\",\"b\":[],\"a\":null,\" \":\"x\",\"c\":true,\"a\":2,\"a\":\x7b\x7d\x7d"

def repeatingContents : Contents :=
  ⟨[⟨"c", "true"⟩], [.invalidValue (.ofString "T.en.json") "b" "an array",
    .invalidValue (.ofString "T.en.json") "a" "null",
    .unusableRow (.ofString "T.en.json") none .blankKey,
    .invalidValue (.ofString "T.en.json") "a" "an object",
    .duplicateKey (.ofString "T.en.json") "a" none]⟩

theorem sorts_of_parse_repeatingText :
    Format.json.parse (.ofString "T.en.json") repeatingText = .ok repeatingContents ∧
      (∃ items, Format.json.Shows repeatingText items) ∧ ∀ items,
        Format.json.Shows repeatingText items →
          Sorts (.ofString "T.en.json") items repeatingContents := by
  have hparse : Format.json.parse (.ofString "T.en.json") repeatingText =
      .ok repeatingContents := by decide +kernel
  exact ⟨hparse, sorts_of_parse hparse⟩

end Format

end Phrasebook
