import Phrasebook.Compile
import Phrasebook.Proofs.Merge

namespace Phrasebook

def Resource.Parses (r : Resource) (language : String) (c : Contents) : Prop :=
  ∃ f, r.files.get? language = some f ∧ f.parse = .ok c

theorem Resource.Parses.unique {r : Resource} {language : String} {c d : Contents}
    (hc : r.Parses language c) (hd : r.Parses language d) : c = d := by
  obtain ⟨f, hf, hc⟩ := hc
  obtain ⟨g, hg, hd⟩ := hd
  cases hf.symm.trans hg
  cases hc.symm.trans hd
  rfl

theorem Resource.Parses.nodup_keys {r : Resource} {language : String} {c : Contents}
    (h : r.Parses language c) : (Merged.keysOf c.entries).Nodup := by
  obtain ⟨f, -, hf⟩ := h
  exact TextFile.nodup_keys_of_parse hf

theorem Resource.Parses.not_blank {r : Resource} {language : String} {c : Contents}
    (h : r.Parses language c) {e : Entry} (he : e ∈ c.entries) :
    Text.isBlankText e.key = false := by
  obtain ⟨f, -, hf⟩ := h
  obtain ⟨text, -, hparse⟩ := TextFile.parse_eq_ok hf
  exact Format.not_blank_of_parse hparse he

/-- The merge has a row for each language whose file parses, and no text of these is lost. -/
structure Merges (r : Resource) (fallback : Contents) (m : Merged) : Prop where
  parses : r.Parses m.fallbackLanguage fallback
  nodup_keys : m.keys.Nodup
  mem_keys : ∀ {language c}, r.Parses language c → ∀ e ∈ c.entries, e.key ∈ m.keys
  get?_values : ∀ {language row}, m.values.get? language = some row ↔
    ∃ c, r.Parses language c ∧ row = m.keys.map (Merged.cell fallback.entries c.entries)

namespace Compile

def entriesOf (r : Resource) : Dict (List Entry) :=
  (r.files.mapValues fun _ f => f.parse).filterMap fun _ c => entries? c

def fileReports (r : Resource) : List Diagnostic :=
  (r.files.mapValues fun _ f => f.parse).values.flatMap fileDiagnostics

theorem get?_entriesOf {r : Resource} {language : String} {entries : List Entry} :
    (entriesOf r).get? language = some entries ↔
      ∃ c, r.Parses language c ∧ entries = c.entries := by
  rw [entriesOf, Dict.get?_filterMap, Dict.get?_mapValues, Option.bind_eq_some_iff]
  simp only [Option.map_eq_some_iff, Resource.Parses]
  constructor
  · rintro ⟨parsed, ⟨f, hf, rfl⟩, hentries⟩
    cases hparse : f.parse with
    | error e =>
      rw [hparse] at hentries
      cases hentries
    | ok c =>
      rw [hparse] at hentries
      cases hentries
      exact ⟨c, ⟨f, hf, hparse⟩, rfl⟩
  · rintro ⟨c, ⟨f, hf, hparse⟩, rfl⟩
    exact ⟨_, ⟨f, hf, rfl⟩, hparse ▸ rfl⟩

theorem merges_of_get? (typeName : String) {r : Resource} {fallbackLanguage : String}
    {fallback : Contents} (h : r.Parses fallbackLanguage fallback) :
    ∃ m warnings, merge typeName (entriesOf r) fallbackLanguage = .ok (m, warnings) ∧
      m.fallbackLanguage = fallbackLanguage ∧ Merges r fallback m ∧
      ∀ d ∈ warnings, d.isError = false := by
  have hget : (entriesOf r).get? fallbackLanguage = some fallback.entries :=
    get?_entriesOf.2 ⟨fallback, h, rfl⟩
  obtain ⟨m, warnings, hmerge, hlanguage, hkeys, hvalues, hwarnings⟩ :=
    merge_eq_ok typeName hget
  refine ⟨m, warnings, hmerge, hlanguage, ?_, hwarnings⟩
  constructor
  case parses => exact hlanguage ▸ h
  case nodup_keys => exact hkeys ▸ Merged.nodup_mergedKeys h.nodup_keys _
  case mem_keys =>
    intro language c hc e he
    rw [hkeys]
    exact Merged.mem_keys_of_get? hget (get?_entriesOf.2 ⟨c, hc, rfl⟩) (List.mem_map.2 ⟨e, he, rfl⟩)
  case get?_values =>
    intro language row
    rw [hvalues, Dict.get?_mapValues, Option.map_eq_some_iff]
    constructor
    · rintro ⟨entries, hentries, rfl⟩
      obtain ⟨c, hc, rfl⟩ := get?_entriesOf.1 hentries
      exact ⟨c, hc, rfl⟩
    · rintro ⟨c, hc, rfl⟩
      exact ⟨c.entries, get?_entriesOf.2 ⟨c, hc, rfl⟩, rfl⟩

/-- The two ways in which the preparation of a type ends. -/
inductive Preparation (o : Options) (fallbackLanguage typeName : String) (r : Resource) :
    Prepared → Prop
  | merged {fallback : Contents} {m : Merged} {warnings : List Diagnostic} :
      m.fallbackLanguage = fallbackLanguage → Merges r fallback m →
      (∀ d ∈ warnings, d.isError = false) →
      Preparation o fallbackLanguage typeName r
        ⟨r.files.values, fileReports r ++ warnings, .ok (.ofMerged m r o)⟩
  | missing : (∀ c, ¬r.Parses fallbackLanguage c) →
      Preparation o fallbackLanguage typeName r
        ⟨r.files.values, fileReports r, .error (.missingFallback typeName fallbackLanguage)⟩

theorem prepare_of_ok {o : Options} {fallbackLanguage typeName : String} {r : Resource}
    {m : Merged} {warnings : List Diagnostic}
    (h : merge typeName (entriesOf r) fallbackLanguage = .ok (m, warnings)) :
    prepare o fallbackLanguage typeName r =
      ⟨r.files.values, fileReports r ++ warnings, .ok (.ofMerged m r o)⟩ := by
  rw [entriesOf] at h
  simp only [prepare, fileReports, h]

theorem prepare_of_error {o : Options} {fallbackLanguage typeName : String} {r : Resource}
    {e : Error} (h : merge typeName (entriesOf r) fallbackLanguage = .error e) :
    prepare o fallbackLanguage typeName r = ⟨r.files.values, fileReports r, .error e⟩ := by
  rw [entriesOf] at h
  simp only [prepare, fileReports, h]

theorem preparation_prepare (o : Options) (fallbackLanguage typeName : String) (r : Resource) :
    Preparation o fallbackLanguage typeName r (prepare o fallbackLanguage typeName r) := by
  by_cases h : ∃ c, r.Parses fallbackLanguage c
  · obtain ⟨fallback, hfallback⟩ := h
    obtain ⟨m, warnings, hmerge, hlanguage, hm, hwarnings⟩ :=
      merges_of_get? typeName hfallback
    rw [prepare_of_ok hmerge]
    exact .merged hlanguage hm hwarnings
  · have hnone : (entriesOf r).get? fallbackLanguage = none := by
      apply Option.eq_none_iff_forall_ne_some.2
      intro entries hentries
      obtain ⟨c, hc, -⟩ := get?_entriesOf.1 hentries
      exact h ⟨c, hc⟩
    rw [prepare_of_error (merge_eq_error typeName hnone)]
    exact .missing fun c hc => h ⟨c, hc⟩

end Compile

end Phrasebook
