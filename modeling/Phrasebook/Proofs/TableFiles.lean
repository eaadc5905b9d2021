import Phrasebook.Proofs.Lookup
import Phrasebook.Proofs.Spelling

universe u

namespace Phrasebook

namespace Merged

def tableOf (keys row : List String) : List Entry := (keys.zip row).map fun p => ⟨p.1, p.2⟩

def tables (m : Merged) : Dict (List Entry) := m.values.mapValues fun _ row => tableOf m.keys row

/-- What a merge of files makes sure of. -/
structure Aligned (m : Merged) : Prop where
  nodup_keys : m.keys.Nodup
  not_blank : ∀ {key}, key ∈ m.keys → Text.isBlankText key = false
  length_row : ∀ {language row}, m.values.get? language = some row → row.length = m.keys.length
  fallback : ∃ row, m.values.get? m.fallbackLanguage = some row

section

variable {keys row : List String} (h : row.length = keys.length)

include h

theorem keysOf_tableOf : keysOf (tableOf keys row) = keys := by
  rw [keysOf, tableOf, List.map_map]
  exact List.map_fst_zip (Nat.le_of_eq h.symm)

theorem map_cell_tableOf (hkeys : keys.Nodup) (fallback : List Entry) :
    keys.map (cell fallback (tableOf keys row)) = row := by
  have hnodup : (keysOf (tableOf keys row)).Nodup := (keysOf_tableOf h).symm ▸ hkeys
  apply List.ext_getElem
  · rw [List.length_map, h]
  · intro i hi hrow
    rw [List.length_map] at hi
    rw [List.getElem_map]
    have hpair : (keys[i], row[i]) ∈ keys.zip row :=
      List.mem_of_getElem? (List.getElem?_zip_eq_some.2
        ⟨List.getElem?_eq_getElem hi, List.getElem?_eq_getElem hrow⟩)
    exact cell_of_mem hnodup (List.mem_map.2 ⟨_, hpair, rfl⟩)

theorem warning?_tableOf (hkeys : keys.Nodup) (typeName language : String) (fallback : List Entry)
    {key : String} (hkey : key ∈ keys) :
    warning? typeName language fallback (tableOf keys row) key = none := by
  have hkeysOf := keysOf_tableOf h
  obtain ⟨e, he, rfl⟩ := List.mem_map.1 (hkeysOf.symm ▸ hkey)
  have htext : textOf (tableOf keys row) e.key = some e.value :=
    (textOf_eq_some_iff (hkeysOf.symm ▸ hkeys)).2 he
  rw [warning?, htext]
  rfl

end

end Merged

open Merged

namespace Merged.Aligned

variable {m : Merged} (h : m.Aligned)

include h

theorem eq_tableOf {language : String} {entries : List Entry}
    (hget : m.tables.get? language = some entries) :
    ∃ row, m.values.get? language = some row ∧ row.length = m.keys.length ∧
      entries = tableOf m.keys row := by
  rw [tables, Dict.get?_mapValues, Option.map_eq_some_iff] at hget
  obtain ⟨row, hrow, rfl⟩ := hget
  exact ⟨row, hrow, h.length_row hrow, rfl⟩

theorem merge_tables (typeName : String) :
    merge typeName m.tables m.fallbackLanguage = .ok (m, []) := by
  obtain ⟨row, hrow⟩ := h.fallback
  have hlength := h.length_row hrow
  have hget : m.tables.get? m.fallbackLanguage = some (tableOf m.keys row) := by
    rw [tables, Dict.get?_mapValues, hrow, Option.map_some]
  have hothers : (m.tables.erase m.fallbackLanguage).values.flatMap keysOf ⊆ m.keys := by
    intro key hkey
    obtain ⟨entries, hentries, hkey⟩ := List.mem_flatMap.1 hkey
    obtain ⟨language, hlanguage⟩ := Dict.mem_values_iff.1 hentries
    rw [Dict.get?_erase] at hlanguage
    split at hlanguage
    · cases hlanguage
    · obtain ⟨row, -, hlength, rfl⟩ := h.eq_tableOf hlanguage
      exact keysOf_tableOf hlength ▸ hkey
  have hkeys : mergedKeys (tableOf m.keys row)
      (m.tables.erase m.fallbackLanguage).values = m.keys := by
    rw [mergedKeys, keysOf_tableOf hlength, newKeys_of_subset hothers, List.append_nil]
  have hvalues : (m.tables.mapValues fun _ entries =>
      m.keys.map (cell (tableOf m.keys row) entries)) = m.values := by
    apply Dict.ext_get?
    intro language
    rw [Dict.get?_mapValues, tables, Dict.get?_mapValues, Option.map_map]
    cases hlanguage : m.values.get? language with
    | none => rfl
    | some row => exact congrArg some (map_cell_tableOf (h.length_row hlanguage) h.nodup_keys _)
  have hwarnings : (m.tables.toList.flatMap fun p =>
      m.keys.filterMap (warning? typeName p.1 (tableOf m.keys row) p.2)) = [] := by
    rw [List.flatMap_eq_nil_iff]
    rintro ⟨language, entries⟩ hp
    rw [List.filterMap_eq_nil_iff]
    intro key hkey
    obtain ⟨row, -, hlength, rfl⟩ := h.eq_tableOf (Dict.mem_toList_iff.1 hp)
    exact warning?_tableOf hlength h.nodup_keys typeName language _ hkey
  unfold merge
  rw [hget]
  simp only [hkeys, hvalues, hwarnings]

end Merged.Aligned

theorem Compile.aligned_of_merge {r : Resource} {typeName fallbackLanguage : String} {m : Merged}
    {warnings : List Diagnostic}
    (h : merge typeName (entriesOf r) fallbackLanguage = .ok (m, warnings)) : m.Aligned := by
  cases hget : (entriesOf r).get? fallbackLanguage with
  | none =>
    rw [merge_eq_error typeName hget] at h
    cases h
  | some fallback =>
    obtain ⟨_, _, hmerge, hlanguage, hkeys, hvalues, -⟩ := merge_eq_ok typeName hget
    cases hmerge.symm.trans h
    obtain ⟨c, hc, rfl⟩ := get?_entriesOf.1 hget
    constructor
    case nodup_keys => exact hkeys ▸ nodup_mergedKeys hc.nodup_keys _
    case not_blank =>
      intro key hkey
      rw [hkeys, mem_mergedKeys_iff] at hkey
      obtain hkey | ⟨entries, hentries, hkey⟩ := hkey
      · obtain ⟨e, he, rfl⟩ := List.mem_map.1 hkey
        exact hc.not_blank he
      · obtain ⟨language, hlanguage⟩ := Dict.mem_values_iff.1 hentries
        rw [Dict.get?_erase] at hlanguage
        split at hlanguage
        · cases hlanguage
        · obtain ⟨d, hd, rfl⟩ := get?_entriesOf.1 hlanguage
          obtain ⟨e, he, rfl⟩ := List.mem_map.1 hkey
          exact hd.not_blank he
    case length_row =>
      intro language row hrow
      rw [hvalues, Dict.get?_mapValues, Option.map_eq_some_iff] at hrow
      obtain ⟨entries, -, rfl⟩ := hrow
      exact List.length_map _
    case fallback =>
      refine ⟨m.keys.map (cell c.entries c.entries), ?_⟩
      rw [hlanguage, hvalues, Dict.get?_mapValues, hget, Option.map_some]

namespace SourceUnit

def readTables (u : SourceUnit) (path : String → Path) : Dict (List Entry) :=
  .ofList (u.tableFiles.filterMap fun t =>
    (Compile.entries? (Format.json.parse (path t.fileName) t.content)).map (t.language, ·))

/-- The table files give back the merge: each is read without errors as the keys with the texts of
its language, and nothing is put in when they are merged again. -/
structure Reproduces (u : SourceUnit) (m : Merged) (path : String → Path) : Prop where
  languages : u.tableFiles.map (·.language) = m.languages
  parse : ∀ {t}, t ∈ u.tableFiles → ∃ row, m.values.get? t.language = some row ∧
    row.length = m.keys.length ∧
      Format.json.parse (path t.fileName) t.content = .ok ⟨tableOf m.keys row, []⟩
  merge : merge u.typeName (u.readTables path) m.fallbackLanguage = .ok (m, [])

end SourceUnit

namespace Merged.Aligned

variable {m : Merged} (h : m.Aligned)

include h

theorem parse_tableFile (r : Resource) {row : List String} (hrow : row.length = m.keys.length)
    (language : String) (path : Path) :
    Format.json.parse path (SourceUnit.tableFile r m.keys (language, row)).content =
      .ok ⟨tableOf m.keys row, []⟩ := by
  have hkeys := keysOf_tableOf hrow
  have hnodup : (keysOf (tableOf m.keys row)).Nodup := by
    rw [hkeys]
    exact h.nodup_keys
  refine Format.parse_json ?_ hnodup path ?_
  · intro e he
    exact h.not_blank (hkeys ▸ List.mem_map.2 ⟨e, he, rfl⟩)
  · rw [tableOf, List.map_map]
    exact Json.objectSpelling_printTexts (m.keys.zip row)

theorem readTables_ofMerged (r : Resource) (o : Options) (path : String → Path) :
    (SourceUnit.ofMerged m r o).readTables path = m.tables := by
  have hread : (SourceUnit.ofMerged m r o).tableFiles.filterMap (fun t =>
      (Compile.entries? (Format.json.parse (path t.fileName) t.content)).map (t.language, ·)) =
        m.tables.toList := by
    change (m.values.toList.map _).filterMap _ = m.values.toList.map _
    rw [List.filterMap_map, ← List.filterMap_eq_map]
    apply List.filterMap_congr
    rintro ⟨language, row⟩ hp
    have hlength := h.length_row (Dict.mem_toList_iff.1 hp)
    simp only [Function.comp_apply, h.parse_tableFile r hlength language]
    rfl
  rw [SourceUnit.readTables, hread]
  apply Dict.ext_get?
  intro language
  apply Option.ext
  intro entries
  rw [Dict.get?_ofList m.tables.nodup_keys, Dict.mem_toList_iff]

theorem reproduces (r : Resource) (o : Options) (path : String → Path) :
    (SourceUnit.ofMerged m r o).Reproduces m path where
  languages := List.map_map.trans rfl
  parse := by
    intro t ht
    obtain ⟨⟨language, row⟩, hp, rfl⟩ := List.mem_map.1 ht
    have hrow := Dict.mem_toList_iff.1 hp
    exact ⟨row, hrow, h.length_row hrow, h.parse_tableFile r (h.length_row hrow) language _⟩
  merge := by
    rw [h.readTables_ofMerged r o path]
    exact h.merge_tables _

end Merged.Aligned

open Compile in
/-- Whatever a run delivers, its table files give back the merge of the files of its type. -/
theorem reproduces_of_delivered (schedule : Schedule) {σ : Type u} (h : Host σ) (o : Options)
    (files : List TextFile) (s : σ) {u : SourceUnit} {answer : Except Error Unit}
    (hu : .unit u answer ∈ (compileUnder schedule h.logged o files (s, [])).2.2) :
    ∃ r fallbackLanguage m warnings,
      (Catalogue.ofFiles o files).types.get? u.typeName = some r ∧
      o.fallbackTag = .ok fallbackLanguage ∧
      merge u.typeName (entriesOf r) fallbackLanguage = .ok (m, warnings) ∧
      u = .ofMerged m r o ∧ ∀ path, u.Reproduces m path := by
  obtain ⟨fallbackLanguage, name, r, htag, hget, hunit⟩ :=
    (run_compile schedule h o files s).unit_of_mem hu
  obtain rfl : r.fullName = name :=
    (Catalogue.fits_of_mem (Catalogue.sound_ofFiles o files) hget).1
  cases hmerge : merge r.fullName (entriesOf r) fallbackLanguage with
  | error e =>
    rw [prepare_of_error hmerge] at hunit
    cases hunit
  | ok p =>
    obtain ⟨m, warnings⟩ := p
    rw [prepare_of_ok hmerge] at hunit
    cases hunit
    exact ⟨r, fallbackLanguage, m, warnings, hget, htag, hmerge, rfl,
      (aligned_of_merge hmerge).reproduces r o⟩

def TextFile.bilingualBatch : List TextFile :=
  [{ TextFile.sample "Greeting.en.csv" with
      content := Text.Utf8.ofString "Hello,\"Good\nday, \"\"😀\"\"\"" },
    { TextFile.sample "Greeting.de.json" with
      format := .json
      content := Text.Utf8.ofString "\x7b\"Bye\":\"Tsch\\u00FCss\"\x7d" }]

open Compile in
theorem reproduces_of_delivered_bilingualBatch : ∃ u, Delivery.unit u (.ok ()) ∈ (compile
      Host.accepting.logged .sample TextFile.bilingualBatch ((), [])).2.2 ∧
    u.tableFiles.map (·.language) = ["de", "en"] ∧ ∃ r fallbackLanguage m warnings,
      (Catalogue.ofFiles .sample TextFile.bilingualBatch).types.get? u.typeName = some r ∧
      Options.sample.fallbackTag = .ok fallbackLanguage ∧
      merge u.typeName (entriesOf r) fallbackLanguage = .ok (m, warnings) ∧
      u = .ofMerged m r .sample ∧ ∀ path, u.Reproduces m path := by
  have hone : (compile Host.accepting.logged .sample TextFile.bilingualBatch
      ((), [])).2.2.units.map (·.tableFiles.map (·.language)) = [["de", "en"]] := by decide +kernel
  obtain ⟨u, hu, hlanguages⟩ := List.map_eq_singleton_iff.1 hone
  have hmem := Log.mem_units_iff.1 (hu ▸ List.mem_singleton_self u)
  exact ⟨u, hmem, hlanguages, reproduces_of_delivered .inOrder _ _ _ _ hmem⟩

end Phrasebook
