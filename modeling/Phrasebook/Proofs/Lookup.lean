import Phrasebook.Proofs.Catalogue
import Phrasebook.Proofs.Choice
import Phrasebook.Proofs.Prepare
import Phrasebook.Proofs.Readback
import Phrasebook.Proofs.Run
import Phrasebook.Proofs.Tag

/-!
From the files of a batch to a look-up. Every unit that a run delivers has a table that serves any
request with the texts of one of its languages, or of the fallback language where that one has none.
-/

universe u

namespace Phrasebook

/-- Behind its leading comment the source of the unit is read back as the table, and each field is
bound to its own place in a row. -/
def SourceUnit.Writes (u : SourceUnit) (r : Resource) (o : Options) (t : Table) : Prop :=
  ∃ code, u.source = lines (header r o) ++ code ∧ readTable? code = some t ∧
    readBindings code = (Identifier.fieldNames t.keys).zipIdx

namespace Table

/-- The languages of a table are those of the resource whose file parses. -/
structure Describes (t : Table) (r : Resource) (fallbackLanguage : String) : Prop where
  fallbackLanguage : t.fallbackLanguage = fallbackLanguage
  ascending : t.languages.Pairwise (· < ·)
  mem_languages : ∀ l, l ∈ t.languages ↔ ∃ c, r.Parses l c
  fallback_mem : t.fallbackLanguage ∈ t.languages
  nodup_keys : t.keys.Nodup

def text (own fallback : Contents) (key : String) : String :=
  (own.get? key <|> fallback.get? key).getD ""

/-- The request is served with the texts of one language: all fields can be bound, and field and
look-up give the same text. -/
structure Serves (t : Table) (r : Resource) (requested : String) (i : Nat) (language : String)
    (own fallback : Contents) (fields : List String) : Prop where
  choose : Language.choose requested t.languages t.fallbackLanguage = some i
  lt : i < t.languages.length
  getElem?_languages : t.languages[i]? = some language
  parses : r.Parses language own
  parses_fallback : r.Parses t.fallbackLanguage fallback
  bind : bind? (Identifier.fieldNames t.keys).length (t.rowFor requested) = some fields
  field : ∀ {j : Nat} {key}, t.keys[j]? = some key → fields[j]? = some (text own fallback key)
  lookup : ∀ {j : Nat} {key}, t.keys[j]? = some key →
    t.lookup requested key = some (text own fallback key)

end Table

variable {r : Resource} {fallback : Contents} {m : Merged}

theorem Merged.cell_entries {own : Contents} (hfallback : (keysOf fallback.entries).Nodup)
    (hown : (keysOf own.entries).Nodup) (key : String) :
    cell fallback.entries own.entries key = Table.text own fallback key := by
  rw [cell, Table.text, textOf_entries hown, textOf_entries hfallback]

theorem Merges.describes (h : Merges r fallback m) :
    (Table.ofMerged m r).Describes r m.fallbackLanguage where
  fallbackLanguage := rfl
  ascending := Dict.ascending_keys m.values
  mem_languages l := by
    change l ∈ m.values.keys ↔ _
    rw [Dict.mem_keys_iff]
    constructor
    · rintro ⟨row, hrow⟩
      obtain ⟨c, hc, -⟩ := h.get?_values.1 hrow
      exact ⟨c, hc⟩
    · rintro ⟨c, hc⟩
      exact ⟨_, h.get?_values.2 ⟨c, hc, rfl⟩⟩
  fallback_mem := Dict.mem_keys_iff.2 ⟨_, h.get?_values.2 ⟨fallback, h.parses, rfl⟩⟩
  nodup_keys := h.nodup_keys

theorem Merges.row_of_language (h : Merges r fallback m) {i : Nat} {language : String}
    (hi : (Table.ofMerged m r).languages[i]? = some language) : ∃ own, r.Parses language own ∧
      (Table.ofMerged m r).values[i]? = some (m.keys.map (Table.text own fallback)) := by
  change (m.values.toList.map (·.1))[i]? = some language at hi
  rw [List.getElem?_map, Option.map_eq_some_iff] at hi
  obtain ⟨⟨_, row⟩, hpair, rfl⟩ := hi
  have hrow := Dict.mem_toList_iff.1 (List.mem_of_getElem? hpair)
  obtain ⟨own, hown, rfl⟩ := h.get?_values.1 hrow
  refine ⟨own, hown, ?_⟩
  change (m.values.toList.map (·.2))[i]? = _
  rw [List.getElem?_map, hpair, Option.map_some]
  exact congrArg some (List.map_congr_left fun key _ =>
    Merged.cell_entries h.parses.nodup_keys hown.nodup_keys key)

theorem Merges.serves (h : Merges r fallback m) (requested : String) :
    ∃ i language own fields,
      (Table.ofMerged m r).Serves r requested i language own fallback fields := by
  obtain ⟨i, hchoose, hlt⟩ := Language.choose_eq_some h.describes.fallback_mem requested
  obtain ⟨language, hlanguage⟩ : ∃ language, (Table.ofMerged m r).languages[i]? = some language :=
    ⟨_, List.getElem?_eq_getElem hlt⟩
  obtain ⟨own, hown, hrow⟩ := h.row_of_language hlanguage
  have hrowFor : (Table.ofMerged m r).rowFor requested = m.keys.map (Table.text own fallback) := by
    rw [Table.rowFor, hchoose]
    exact congrArg (Option.getD · []) hrow
  have hfield {j : Nat} {key : String} (hkey : m.keys[j]? = some key) :
      (m.keys.map (Table.text own fallback))[j]? = some (Table.text own fallback key) := by
    rw [List.getElem?_map, hkey, Option.map_some]
  refine ⟨i, language, own, m.keys.map (Table.text own fallback), ?_⟩
  constructor
  case choose => exact hchoose
  case lt => exact hlt
  case getElem?_languages => exact hlanguage
  case parses => exact hown
  case parses_fallback => exact h.parses
  case bind =>
    rw [hrowFor, Table.bind?, Identifier.length_fieldNames]
    have hlength : m.keys.length = (m.keys.map (Table.text own fallback)).length :=
      (List.length_map _).symm
    exact (if_pos (Nat.le_of_eq hlength)).trans (congrArg some (List.take_of_length_le hlength.ge))
  case field => exact hfield
  case lookup =>
    intro j key hkey
    change m.keys[j]? = some key at hkey
    have hindex : m.keys.idxOf? key = some j := by
      obtain ⟨hj, heq⟩ := List.getElem?_eq_some_iff.1 hkey
      refine List.idxOf?_eq_some_iff.2 ⟨hj, heq, ?_⟩
      intro k hk hkeq
      exact Nat.ne_of_lt hk ((h.nodup_keys.getElem_inj_iff).1 (hkeq.trans heq.symm))
    change (m.keys.idxOf? key).bind (((Table.ofMerged m r).rowFor requested)[·]?) = _
    rw [hindex, hrowFor]
    exact hfield hkey

theorem Merges.writes {o : Options} {files : List TextFile} {types : Dict Resource}
    (hsound : Catalogue.Sound o files types) {name : String} (hr : types.get? name = some r)
    (h : Merges r fallback m) : (SourceUnit.ofMerged m r o).Writes r o (Table.ofMerged m r) := by
  obtain ⟨-, p, hfits, -, hbase⟩ := Catalogue.fits_of_mem hsound hr
  have htype : SourceUnit.IsBare (Identifier.render r.baseName) := by
    apply Identifier.mem_render
    exact Identifier.isWord_of_isIdentifier (hbase ▸ hfits.baseName)
  have hlanguages : ∀ l ∈ m.languages, SourceUnit.OneLine l := by
    intro l hl hnewline
    obtain ⟨row, hrow⟩ := Dict.mem_keys_iff.1 hl
    obtain ⟨c, ⟨f, hf, -⟩, -⟩ := h.get?_values.1 hrow
    obtain ⟨tag, htag⟩ := Catalogue.canonical_of_mem hsound hr hf
    exact absurd (Language.isTagChar_canonical? htag _ hnewline) (by decide)
  exact ⟨_, SourceUnit.sourceText_eq m r o, SourceUnit.readTable?_codeLines htype hlanguages,
    SourceUnit.readBindings_codeLines htype hlanguages⟩

theorem Compile.merges_of_unit {o : Options} {fallbackLanguage name : String} {u : SourceUnit}
    (hu : (prepare o fallbackLanguage name r).unit = .ok u) : ∃ fallback m,
      Merges r fallback m ∧ m.fallbackLanguage = fallbackLanguage ∧ u = .ofMerged m r o := by
  have hprepared := preparation_prepare o fallbackLanguage name r
  generalize prepare o fallbackLanguage name r = q at hprepared hu
  cases hprepared with
  | missing _ => cases hu
  | merged hlanguage hm _ =>
    cases hu
    exact ⟨_, _, hm, hlanguage, rfl⟩

open Compile in
/-- Whatever language is asked for, each unit that reaches the host serves it. -/
theorem serves_of_delivered (schedule : Schedule) {σ : Type u} (h : Host σ) (o : Options)
    (files : List TextFile) (s : σ) {u : SourceUnit} {answer : Except Error Unit}
    (hu : .unit u answer ∈ (compileUnder schedule h.logged o files (s, [])).2.2) :
    ∃ r fallbackLanguage t, (Catalogue.ofFiles o files).types.get? u.typeName = some r ∧
      o.fallbackTag = .ok fallbackLanguage ∧ u.Writes r o t ∧ t.Describes r fallbackLanguage ∧
        ∀ requested, ∃ i language own fallback fields,
          t.Serves r requested i language own fallback fields := by
  obtain ⟨fallbackLanguage, name, r, htag, hr, hunit⟩ :=
    (run_compile schedule h o files s).unit_of_mem hu
  obtain ⟨fallback, m, hm, rfl, rfl⟩ := merges_of_unit hunit
  have hsound := Catalogue.sound_ofFiles o files
  have hname : r.fullName = name := (Catalogue.fits_of_mem hsound hr).1
  refine ⟨r, _, Table.ofMerged m r, ?_, htag, hm.writes hsound hr, hm.describes, ?_⟩
  · change (Catalogue.ofFiles o files).types.get? r.fullName = some r
    rw [hname, hr]
  · intro requested
    obtain ⟨i, language, own, fields, hserves⟩ := hm.serves requested
    exact ⟨i, language, own, fallback, fields, hserves⟩

def Host.accepting : Host Unit where
  isCancelled _ := false
  report _ _ := ()
  save _ _ := (.ok (), ())

open Compile in
theorem serves_of_delivered_sample : ∃ u, Delivery.unit u (.ok ()) ∈ (compile
      Host.accepting.logged .sample [.sample "Greeting.en.csv"] ((), [])).2.2 ∧
    ∃ r fallbackLanguage t,
      (Catalogue.ofFiles .sample [.sample "Greeting.en.csv"]).types.get? u.typeName = some r ∧
      Options.sample.fallbackTag = .ok fallbackLanguage ∧ u.Writes r .sample t ∧
      t.Describes r fallbackLanguage ∧ ∀ requested, ∃ i language own fallback fields,
        t.Serves r requested i language own fallback fields := by
  have hone : (compile Host.accepting.logged .sample [.sample "Greeting.en.csv"]
      ((), [])).2.2.units.length = 1 := by decide +kernel
  obtain ⟨u, hu⟩ := List.length_eq_one_iff.1 hone
  have hmem := Log.mem_units_iff.1 (hu ▸ List.mem_singleton_self u)
  exact ⟨u, hmem, serves_of_delivered .inOrder _ _ _ _ hmem⟩

end Phrasebook
