import Phrasebook.Proofs.Contents
import Phrasebook.Proofs.Csv
import Phrasebook.Proofs.Json
import Phrasebook.Proofs.Printer

namespace Phrasebook

def Entry.chars (e : Entry) : List Char × List Char := (e.key.toList, e.value.toList)

/-- How a list of entries may be written in a format. A text that begins with a byte-order mark
spells nothing, as the mark would be taken away from a bare first key. -/
inductive Format.Spells : Format → List Entry → String → Prop
  | json {entries text} : Json.ObjectSpelling (entries.map Entry.chars) text.toList →
      Spells json entries text
  | csv {entries text} : Csv.Spelling (entries.map Entry.chars) text.toList →
      text.toList.head? ≠ some '\uFEFF' → Spells csv entries text

namespace Contents

theorem views_of_accepted {outcomes : List Outcome} {entries : List Entry}
    (h : outcomes.map Outcome.entry? = entries.map some) :
    outcomes.filterMap Outcome.entry? = entries ∧ outcomes.filterMap Outcome.error? = [] ∧
      (outcomes.filterMap Outcome.occurrence?).map (·.key) = entries.map (·.key) := by
  induction outcomes generalizing entries with
  | nil =>
    cases entries with
    | nil => exact ⟨rfl, rfl, rfl⟩
    | cons e entries => cases h
  | cons o outcomes ih =>
    cases entries with
    | nil => cases h
    | cons e entries =>
      obtain ⟨hfirst, hrest⟩ := List.cons.inj h
      obtain ⟨hentries, herrors, hkeys⟩ := ih hrest
      cases o with
      | accepted occurrence value =>
        cases hfirst
        exact ⟨congrArg _ hentries, herrors, congrArg _ hkeys⟩
      | refused | keyless => cases hfirst

theorem ofOutcomes_of_accepted (path : Path) {outcomes : List Outcome} {entries : List Entry}
    (h : outcomes.map Outcome.entry? = entries.map some)
    (hkeys : (entries.map (·.key)).Nodup) : ofOutcomes path outcomes = ⟨entries, []⟩ := by
  obtain ⟨hentries, herrors, hoccurrences⟩ := views_of_accepted h
  have hnone : repeated [] (outcomes.filterMap Outcome.occurrence?) = [] :=
    (repeated_eq_nil_iff List.nodup_nil).2 ⟨fun _ _ => List.not_mem_nil, hoccurrences ▸ hkeys⟩
  have hsingle : ∀ e ∈ entries, decide ((entries.map (·.key)).count e.key = 1) = true := by
    intro e he
    exact decide_eq_true (List.count_eq_one_of_mem hkeys (List.mem_map.2 ⟨e, he, rfl⟩))
  simp only [ofOutcomes, hentries, herrors, hoccurrences, hnone, List.filter_eq_self.2 hsingle,
    List.map_nil, List.append_nil]

section

variable (path : Path) {e : Entry} (hblank : Text.isBlankText e.key = false)

include hblank

theorem entry?_ofMember :
    Outcome.entry? (ofMember path (Json.Reader.textMember e.chars)) = some e := by
  have hkey : (Json.Reader.textMember e.chars).1 = e.key := String.ofList_toList
  have hvalue : (Json.Reader.textMember e.chars).2.scalarText? = some e.value :=
    congrArg some String.ofList_toList
  simp only [ofMember, hkey, hblank, hvalue]
  rfl

theorem entry?_ofRecord {record : Csv.Record} (h : record.fields = [e.key, e.value]) :
    Outcome.entry? (ofRecord path record) = some e := by
  simp only [ofRecord, h, hblank]
  rfl

end

theorem map_entry?_ofRecord (path : Path) {records : List Csv.Record} {entries : List Entry}
    (hblank : ∀ e ∈ entries, Text.isBlankText e.key = false)
    (h : records.map (·.fields) = entries.map fun e => [e.key, e.value]) :
    (records.map (ofRecord path)).map Outcome.entry? = entries.map some := by
  induction records generalizing entries with
  | nil =>
    cases entries with
    | nil => rfl
    | cons e entries => cases h
  | cons record records ih =>
    cases entries with
    | nil => cases h
    | cons e entries =>
      obtain ⟨hfirst, hrest⟩ := List.cons.inj h
      rw [List.map_cons, List.map_cons, List.map_cons,
        entry?_ofRecord path (hblank e List.mem_cons_self) hfirst,
        ih (fun f hf => hblank f (List.mem_cons_of_mem e hf)) hrest]

end Contents

namespace Format

section

variable {entries : List Entry} (hblank : ∀ e ∈ entries, Text.isBlankText e.key = false)

include hblank

theorem fields_csv {text : String} (h : Csv.Spelling (entries.map Entry.chars) text.toList)
    (hmark : text.toList.head? ≠ some '\uFEFF') :
    (Csv.parse text.toList).map (·.fields) = entries.map fun e => [e.key, e.value] := by
  have hne : ∀ p ∈ entries.map Entry.chars, p.1 ≠ [] := by
    intro p hp
    obtain ⟨e, he, rfl⟩ := List.mem_map.1 hp
    intro hnil
    have hkey : Text.isBlankText e.key = false := hblank e he
    rw [String.toList_eq_nil_iff.1 hnil] at hkey
    cases hkey
  rw [Csv.fields_parse h hne hmark, List.map_map]
  exact List.map_congr_left fun e _ => congrArg₂ (fun k v => [k, v]) String.ofList_toList
    String.ofList_toList

theorem pairs_of_spells {format : Format} {text : String} (h : format.Spells entries text) :
    format.pairs text = entries.map fun e => (some e.key, some e.value) := by
  cases h with
  | json h =>
    simp only [pairs, Json.parseObject_object h, List.map_map]
    refine List.map_congr_left fun e _ => ?_
    exact congrArg₂ (fun k v => (some k, some v)) String.ofList_toList String.ofList_toList
  | csv h hmark =>
    have hfields := congrArg (List.map fun fs : List String => (fs[0]?, fs[1]?))
      (fields_csv hblank h hmark)
    rwa [List.map_map, List.map_map] at hfields

variable (hkeys : (entries.map (·.key)).Nodup) (path : Path)

include hkeys

theorem parse_json {text : String}
    (h : Json.ObjectSpelling (entries.map Entry.chars) text.toList) :
    json.parse path text = .ok ⟨entries, []⟩ := by
  simp only [parse, Json.parseObject_object h]
  refine congrArg Except.ok (Contents.ofOutcomes_of_accepted path ?_ hkeys)
  rw [List.map_map, List.map_map, List.map_map]
  exact List.map_congr_left fun e he => Contents.entry?_ofMember path (hblank e he)

theorem parse_csv {text : String} (h : Csv.Spelling (entries.map Entry.chars) text.toList)
    (hmark : text.toList.head? ≠ some '\uFEFF') : csv.parse path text = .ok ⟨entries, []⟩ :=
  congrArg Except.ok (Contents.ofOutcomes_of_accepted path
    (Contents.map_entry?_ofRecord path hblank (fields_csv hblank h hmark)) hkeys)

end

end Format

/-- Entries with distinct keys, none of them blank, are read back from both formats. -/
theorem Format.parse_of_spells {entries : List Entry} (hkeys : (entries.map (·.key)).Nodup)
    (hblank : ∀ e ∈ entries, Text.isBlankText e.key = false) {format : Format} {text : String}
    (h : format.Spells entries text) (path : Path) :
    format.parse path text = .ok ⟨entries, []⟩ := by
  cases h with
  | json h => exact parse_json hblank hkeys path h
  | csv h hmark => exact parse_csv hblank hkeys path h hmark

/-- Any entries can be written in either format. -/
theorem Format.exists_spells (format : Format) (entries : List Entry) :
    ∃ text, format.Spells entries text := by
  cases format with
  | json =>
    refine ⟨Json.printTexts (entries.map fun e => (e.key, e.value)), .json ?_⟩
    have hobject := Json.objectSpelling_printTexts (entries.map fun e => (e.key, e.value))
    rwa [List.map_map] at hobject
  | csv =>
    suffices h : ∃ t, Csv.Spelling (entries.map Entry.chars) t ∧ t.head? ≠ some '\uFEFF' by
      obtain ⟨t, ht, hmark⟩ := h
      exact ⟨.ofList t, .csv (String.toList_ofList.symm ▸ ht) (String.toList_ofList.symm ▸ hmark)⟩
    induction entries with
    | nil => exact ⟨[], .nil, nofun⟩
    | cons e entries ih =>
      obtain ⟨t, ht, -⟩ := ih
      refine ⟨_, .cons (.pair .quoted .quoted) .feed ht, ?_⟩
      simp [Char.ext_iff]

def Entry.samples : List Entry := [⟨"a,b", "😀\n"⟩, ⟨"é", ""⟩]

def Entry.jsonSample : String := "\x7b \"a\\u002Cb\" : \"\\ud83d\\uDE00\\n\",\n\"é\":\"\" \x7d"

def Entry.csvSample : String := "\"a,b\",\"😀\n\"\r\né,"

theorem Entry.spells_jsonSample : Format.Spells .json Entry.samples Entry.jsonSample := by
  have hcomma : Json.BodySpelling "a,b".toList "a\\u002Cb".toList :=
    .cons (.plain (by decide) (by decide) (by decide))
      (.cons (.unit (.four (by decide))) (.cons (.plain (by decide) (by decide) (by decide)) .nil))
  have hface : Json.BodySpelling "😀\n".toList "\\ud83d\\uDE00\\n".toList :=
    .cons (.pair (m := 0xD83D) (n := 0xDE00) (by decide) (.four (by decide)) (.four (by decide)))
      (.cons (.short .lineFeed) .nil)
  have haccent : Json.BodySpelling "é".toList "é".toList :=
    .cons (.plain (by decide) (by decide) (by decide)) .nil
  have hmembers := Json.MembersSpelling.cons (a := [' ']) (b := []) (.of_all rfl)
    (.pair (.text hcomma) (.text hface) (a := [' ']) (b := [' ']) (.of_all rfl)
      (.of_all rfl)) (.of_all rfl)
    (.last (a := ['\n']) (b := [' ']) (.of_all rfl)
      (.pair (.text haccent) (.text .nil) (a := []) (b := []) (.of_all rfl)
        (.of_all rfl)) (.of_all rfl))
  exact .json (.members (a := []) (b := []) (.of_all rfl) hmembers (.of_all rfl))

theorem Entry.spells_csvSample : Format.Spells .csv Entry.samples Entry.csvSample :=
  have haccent : Csv.FieldSpelling ['é'] ['é'] := .bare (List.forall_mem_singleton.2 rfl)
  .csv (.cons (.pair .quoted .quoted) .returnFeed (.last (.pair haccent (.bare nofun))))
    (by decide)

theorem Format.parse_of_spells_sample : (Entry.samples.map (·.key)).Nodup ∧
    (∀ e ∈ Entry.samples, Text.isBlankText e.key = false) ∧
    Format.Spells .json Entry.samples Entry.jsonSample ∧
    Format.Spells .csv Entry.samples Entry.csvSample ∧ ∀ path,
      Format.json.parse path Entry.jsonSample = .ok ⟨Entry.samples, []⟩ ∧
        Format.csv.parse path Entry.csvSample = .ok ⟨Entry.samples, []⟩ := by
  have hkeys : (Entry.samples.map (·.key)).Nodup := by decide
  have hblank : ∀ e ∈ Entry.samples, Text.isBlankText e.key = false := by decide
  refine ⟨hkeys, hblank, Entry.spells_jsonSample, Entry.spells_csvSample, fun path => ⟨?_, ?_⟩⟩
  · exact parse_of_spells hkeys hblank Entry.spells_jsonSample path
  · exact parse_of_spells hkeys hblank Entry.spells_csvSample path

end Phrasebook
