import Phrasebook.Proofs.Merge

namespace Phrasebook

namespace Merged

inductive Origin
  | own
  | fallback
  | nowhere
  deriving DecidableEq

/-- Where a language gets its text for a key, and which text that is. -/
inductive Supplied (fallback entries : List Entry) (key : String) : Origin → String → Prop
  | own {text} : ⟨key, text⟩ ∈ entries → Supplied fallback entries key .own text
  | fallback {text} :
      key ∉ keysOf entries → ⟨key, text⟩ ∈ fallback → Supplied fallback entries key .fallback text
  | nowhere :
      key ∉ keysOf entries → key ∉ keysOf fallback → Supplied fallback entries key .nowhere ""

def otherKeys (parsed : Dict (List Entry)) (fallbackLanguage : String) : List String :=
  (parsed.toList.filter (·.1 ≠ fallbackLanguage)).flatMap fun p => keysOf p.2

theorem newKeys_eq_eraseDups (known ks : List String) :
    newKeys known ks = (ks.filter (· ∉ known)).eraseDups := by
  induction ks generalizing known with
  | nil => rfl
  | cons k ks ih =>
    simp only [newKeys]
    split
    · next hk => rw [ih, List.filter_cons_of_neg (by simpa using hk)]
    · next hk =>
      rw [ih, List.filter_cons_of_pos (by simpa using hk), List.eraseDups_cons, List.filter_filter]
      congr 3
      funext j
      by_cases hj : j = k <;> simp [hj]

theorem mergedKeys_eq (fallback : List Entry) (parsed : Dict (List Entry))
    (fallbackLanguage : String) :
    mergedKeys fallback (parsed.erase fallbackLanguage).values = keysOf fallback ++
      ((otherKeys parsed fallbackLanguage).filter (· ∉ keysOf fallback)).eraseDups := by
  rw [mergedKeys, newKeys_eq_eraseDups, otherKeys]
  congr 3
  change ((parsed.toList.filter fun p => p.1 != fallbackLanguage).map (·.2)).flatMap keysOf = _
  rw [List.flatMap_map]
  congr 2
  funext p
  by_cases h : p.1 = fallbackLanguage <;> simp [h]

theorem textOf_eq_none_iff {entries : List Entry} {key : String} :
    textOf entries key = none ↔ key ∉ keysOf entries := by
  rw [textOf, Option.map_eq_none_iff, List.findRev?_eq_find?_reverse, List.find?_eq_none, keysOf]
  simp

theorem supplied_cell {fallback entries : List Entry} (hfallback : (keysOf fallback).Nodup)
    (hentries : (keysOf entries).Nodup) (key : String) :
    ∃ origin, Supplied fallback entries key origin (cell fallback entries key) := by
  cases hown : textOf entries key with
  | some text =>
    have hmem := (textOf_eq_some_iff hentries).1 hown
    have hcell : cell fallback entries key = text := cell_of_mem hentries hmem
    exact ⟨.own, hcell ▸ .own hmem⟩
  | none =>
    have hlacks := textOf_eq_none_iff.1 hown
    rw [cell, hown]
    cases hother : textOf fallback key with
    | some text => exact ⟨.fallback, .fallback hlacks ((textOf_eq_some_iff hfallback).1 hother)⟩
    | none => exact ⟨.nowhere, .nowhere hlacks (textOf_eq_none_iff.1 hother)⟩

structure Joins (m : Merged) (parsed : Dict (List Entry)) (fallback : List Entry) : Prop where
  keys : m.keys = keysOf fallback ++
    ((otherKeys parsed m.fallbackLanguage).filter (· ∉ keysOf fallback)).eraseDups
  nodup_keys : m.keys.Nodup
  languages : m.values.keys = parsed.keys
  length_row : ∀ {language row}, m.values.get? language = some row → row.length = m.keys.length
  supplied : ∀ {language entries row}, parsed.get? language = some entries →
    m.values.get? language = some row → ∀ {i : Nat} {key}, m.keys[i]? = some key →
      ∃ origin text, row[i]? = some text ∧ Supplied fallback entries key origin text

inductive Warning (typeName language key : String) (fallback : List Entry) : Diagnostic → Prop
  | substituted : key ∈ keysOf fallback → Warning typeName language key fallback
      ⟨.fallbackSubstituted, s!"`{typeName}`: language `{language}` has no text for key `{key}" ++
        "`, the fallback text is used", none⟩
  | missing : key ∉ keysOf fallback → Warning typeName language key fallback
      ⟨.missingFallbackKey, s!"`{typeName}`: language `{language}` has no text for key `{key}" ++
        "`, which the fallback language does not define either; an empty text is used", none⟩

/-- The warnings stand for `cells`, the language and the key of each text that is put in. -/
structure Warns (m : Merged) (typeName : String) (parsed : Dict (List Entry))
    (fallback : List Entry) (cells : List (String × String)) (warnings : List Diagnostic) :
    Prop where
  warning : List.Forall₂ (fun p d => Warning typeName p.1 p.2 fallback d) cells warnings
  ordered : cells.Pairwise fun p q =>
    p.1 < q.1 ∨ p.1 = q.1 ∧ m.keys.idxOf p.2 < m.keys.idxOf q.2
  nodup : cells.Nodup
  mem_cells : ∀ {language key}, (language, key) ∈ cells ↔
    key ∈ m.keys ∧ ∃ entries, parsed.get? language = some entries ∧ key ∉ keysOf entries
  not_own : ∀ {language key}, (language, key) ∈ cells ↔ ∃ entries origin text,
    parsed.get? language = some entries ∧ m.value? language key = some text ∧
      Supplied fallback entries key origin text ∧ origin ≠ .own
  not_substituted : ∀ {key}, (m.fallbackLanguage, key) ∈ cells → key ∉ keysOf fallback

def warningOf (typeName : String) (fallback : List Entry) (p : String × String) : Diagnostic :=
  if p.2 ∈ keysOf fallback then .fallbackSubstituted typeName p.1 p.2
  else .missingFallbackKey typeName p.1 p.2

theorem fallbackSubstituted_eq (typeName language key : String) :
    Diagnostic.fallbackSubstituted typeName language key =
      ⟨.fallbackSubstituted, s!"`{typeName}`: language `{language}` has no text for key `{key}" ++
        "`, the fallback text is used", none⟩ := by
  simp only [Diagnostic.fallbackSubstituted, Diagnostic.ofTemplate, Template.fill, Code.template,
    Template.fillPiece, String.join, List.map_cons, List.map_nil, List.foldl_cons, List.foldl_nil,
    String.empty_append]
  rfl

theorem missingFallbackKey_eq (typeName language key : String) :
    Diagnostic.missingFallbackKey typeName language key =
      ⟨.missingFallbackKey, s!"`{typeName}`: language `{language}` has no text for key `{key}" ++
        "`, which the fallback language does not define either; an empty text is used", none⟩ := by
  simp only [Diagnostic.missingFallbackKey, Diagnostic.ofTemplate, Template.fill, Code.template,
    Template.fillPiece, String.join, List.map_cons, List.map_nil, List.foldl_cons, List.foldl_nil,
    String.empty_append]
  rfl

theorem warning_warningOf (typeName : String) (fallback : List Entry) (p : String × String) :
    Warning typeName p.1 p.2 fallback (warningOf typeName fallback p) := by
  unfold warningOf
  split
  · next h => exact fallbackSubstituted_eq typeName p.1 p.2 ▸ .substituted h
  · next h => exact missingFallbackKey_eq typeName p.1 p.2 ▸ .missing h

theorem filterMap_warning? (typeName language : String) (fallback entries : List Entry)
    (keys : List String) : keys.filterMap (warning? typeName language fallback entries) =
      ((keys.filter (· ∉ keysOf entries)).map (language, ·)).map (warningOf typeName fallback) := by
  have hsome (es : List Entry) (key : String) :
      (textOf es key).isSome = true ↔ key ∈ keysOf es := by
    rw [Option.isSome_iff_ne_none, ne_eq, textOf_eq_none_iff, not_not]
  rw [List.map_map, ← List.filterMap_eq_map, List.filterMap_filter]
  apply List.filterMap_congr
  intro key _
  by_cases h : key ∈ keysOf entries
  · simp [warning?, hsome, h]
  · by_cases hother : key ∈ keysOf fallback <;> simp [warning?, hsome, h, hother, warningOf]

def lacking (m : Merged) (parsed : Dict (List Entry)) : List (String × String) :=
  parsed.toList.flatMap fun p => (m.keys.filter (· ∉ keysOf p.2)).map (p.1, ·)

theorem mem_lacking_iff {m : Merged} {parsed : Dict (List Entry)} {language key : String} :
    (language, key) ∈ m.lacking parsed ↔
      key ∈ m.keys ∧ ∃ entries, parsed.get? language = some entries ∧ key ∉ keysOf entries := by
  simp only [lacking, List.mem_flatMap, List.mem_map, List.mem_filter, Prod.exists, Prod.mk.injEq,
    Dict.mem_toList_iff, decide_eq_true_eq]
  constructor
  · rintro ⟨_, entries, hget, _, ⟨hkey, hlacks⟩, rfl, rfl⟩
    exact ⟨hkey, entries, hget, hlacks⟩
  · rintro ⟨hkey, entries, hget, hlacks⟩
    exact ⟨language, entries, hget, key, ⟨hkey, hlacks⟩, rfl, rfl⟩

theorem pairwise_idxOf {keys : List String} (h : keys.Nodup) :
    keys.Pairwise fun j k => keys.idxOf j < keys.idxOf k := by
  rw [List.pairwise_iff_getElem]
  intro i j hi hj hij
  rw [h.idxOf_getElem, h.idxOf_getElem]
  exact hij

theorem ordered_lacking {m : Merged} (h : m.keys.Nodup) (parsed : Dict (List Entry)) :
    (m.lacking parsed).Pairwise fun p q =>
      p.1 < q.1 ∨ p.1 = q.1 ∧ m.keys.idxOf p.2 < m.keys.idxOf q.2 := by
  rw [lacking, List.pairwise_flatMap]
  constructor
  · intro p _
    rw [List.pairwise_map]
    exact ((pairwise_idxOf h).filter _).imp fun hlt => .inr ⟨rfl, hlt⟩
  · apply parsed.ascending.imp
    intro p q hlt a ha b hb
    obtain ⟨_, -, rfl⟩ := List.mem_map.1 ha
    obtain ⟨_, -, rfl⟩ := List.mem_map.1 hb
    exact .inl hlt

theorem value?_of_row {m : Merged} {language key : String} {f : String → String}
    (hrow : m.values.get? language = some (m.keys.map f)) (hkey : key ∈ m.keys) :
    m.value? language key = some (f key) := by
  obtain ⟨i, hi⟩ : ∃ i, m.keys.idxOf? key = some i := by
    rw [← Option.isSome_iff_exists, List.isSome_idxOf?]
    exact hkey
  obtain ⟨hlt, hget, -⟩ := List.idxOf?_eq_some_iff.1 hi
  change (m.keys.idxOf? key).bind (fun i => (m.values.get? language).bind (·[i]?)) = _
  rw [hi, hrow]
  simp [hlt, hget]

theorem mem_keys_of_value? {m : Merged} {language key text : String}
    (h : m.value? language key = some text) : key ∈ m.keys := by
  obtain ⟨i, hi, -⟩ := Option.bind_eq_some_iff.1 h
  obtain ⟨hlt, hget, -⟩ := List.idxOf?_eq_some_iff.1 hi
  exact hget ▸ List.getElem_mem hlt

end Merged

open Merged

variable {parsed : Dict (List Entry)} {fallbackLanguage : String} {fallback : List Entry}

theorem merge_of_get? (typeName : String) (h : parsed.get? fallbackLanguage = some fallback) :
    ∃ m, merge typeName parsed fallbackLanguage =
        .ok (m, (m.lacking parsed).map (warningOf typeName fallback)) ∧
      m.fallbackLanguage = fallbackLanguage ∧
      m.keys = mergedKeys fallback (parsed.erase fallbackLanguage).values ∧
      m.values = parsed.mapValues fun _ entries => m.keys.map (cell fallback entries) := by
  let keys := mergedKeys fallback (parsed.erase fallbackLanguage).values
  let values := parsed.mapValues fun _ entries => keys.map (cell fallback entries)
  refine ⟨⟨fallbackLanguage, keys, values⟩, ?_, rfl, rfl, rfl⟩
  unfold merge
  rw [h]
  simp only [lacking, List.map_flatMap, filterMap_warning?, keys, values]

/-- A merge fails exactly for want of the fallback language. -/
theorem merge_eq_error_iff (typeName : String) :
    merge typeName parsed fallbackLanguage = .error (.missingFallback typeName fallbackLanguage) ↔
      fallbackLanguage ∉ parsed.keys := by
  rw [Dict.mem_keys_iff, not_exists]
  constructor
  · intro hmerge entries hget
    obtain ⟨m, hok, -⟩ := merge_of_get? typeName hget
    cases hok.symm.trans hmerge
  · intro hnone
    exact merge_eq_error typeName (Option.eq_none_iff_forall_ne_some.2 hnone)

theorem nodup_of_get? (hkeys : ∀ entries ∈ parsed.values, (keysOf entries).Nodup)
    {language : String} {entries : List Entry} (h : parsed.get? language = some entries) :
    (keysOf entries).Nodup :=
  hkeys entries (Dict.mem_values_iff.2 ⟨language, h⟩)

/-- Where the fallback language is there, the merge holds the texts of all languages. -/
theorem merge_joins (hkeys : ∀ entries ∈ parsed.values, (keysOf entries).Nodup)
    (typeName fallbackLanguage : String) :
    (merge typeName parsed fallbackLanguage =
        .error (.missingFallback typeName fallbackLanguage) ↔ fallbackLanguage ∉ parsed.keys) ∧
      ∀ fallback, parsed.get? fallbackLanguage = some fallback → ∃ m warnings,
        merge typeName parsed fallbackLanguage = .ok (m, warnings) ∧
          m.fallbackLanguage = fallbackLanguage ∧ m.Joins parsed fallback := by
  refine ⟨merge_eq_error_iff typeName, ?_⟩
  intro fallback hfallback
  obtain ⟨m, hmerge, rfl, hmerged, hvalues⟩ := merge_of_get? typeName hfallback
  have hnodup := nodup_of_get? hkeys hfallback
  refine ⟨m, _, hmerge, rfl, ?_⟩
  constructor
  case keys => rw [hmerged, mergedKeys_eq]
  case nodup_keys => exact hmerged ▸ nodup_mergedKeys hnodup _
  case languages => rw [hvalues, Dict.keys_mapValues]
  case length_row =>
    intro language row hrow
    rw [hvalues, Dict.get?_mapValues, Option.map_eq_some_iff] at hrow
    obtain ⟨entries, -, rfl⟩ := hrow
    exact List.length_map _
  case supplied =>
    intro language entries row hentries hrow i key hkey
    rw [hvalues, Dict.get?_mapValues, hentries] at hrow
    cases hrow
    obtain ⟨origin, hsupplied⟩ := supplied_cell hnodup (nodup_of_get? hkeys hentries) key
    exact ⟨origin, _, by rw [List.getElem?_map, hkey, Option.map_some], hsupplied⟩

def Merged.samples : Dict (List Entry) :=
  .ofList [("en", [⟨"bye", "Bye"⟩, ⟨"hello", "Hello"⟩]),
    ("fr", [⟨"thanks", "Merci"⟩, ⟨"hello", ""⟩, ⟨"please", "Merci"⟩]),
    ("de", [⟨"please", "Bitte"⟩, ⟨"bye", "Tschüss"⟩])]

theorem Merged.nodup_samples : ∀ entries ∈ samples.values, (keysOf entries).Nodup := by
  decide +kernel

theorem Merged.get?_samples :
    samples.get? "en" = some [⟨"bye", "Bye"⟩, ⟨"hello", "Hello"⟩] := by decide +kernel

theorem merge_joins_samples : (∀ entries ∈ samples.values, (keysOf entries).Nodup) ∧
    merge "Greeting" samples "it" = .error (.missingFallback "Greeting" "it") ∧
    ∃ fallback m warnings, samples.get? "en" = some fallback ∧
      merge "Greeting" samples "en" = .ok (m, warnings) ∧
      m.keys = ["bye", "hello", "please", "thanks"] ∧ m.Joins samples fallback := by
  have herror := (merge_joins nodup_samples "Greeting" "it").1.2 (by decide +kernel)
  obtain ⟨m, warnings, hmerge, hlanguage, hjoins⟩ :=
    (merge_joins nodup_samples "Greeting" "en").2 _ get?_samples
  refine ⟨nodup_samples, herror, _, m, warnings, get?_samples, hmerge, ?_, hjoins⟩
  rw [hjoins.keys, hlanguage]
  decide +kernel

/-- A merge warns of each text that it puts in, once and in order, and of nothing else. -/
theorem merge_warns (hkeys : ∀ entries ∈ parsed.values, (keysOf entries).Nodup)
    (typeName : String) (hfallback : parsed.get? fallbackLanguage = some fallback) :
    ∃ m cells warnings, merge typeName parsed fallbackLanguage = .ok (m, warnings) ∧
      m.fallbackLanguage = fallbackLanguage ∧ m.Warns typeName parsed fallback cells warnings := by
  obtain ⟨m, hmerge, rfl, hmerged, hvalues⟩ := merge_of_get? typeName hfallback
  have hnodup := nodup_of_get? hkeys hfallback
  refine ⟨m, m.lacking parsed, _, hmerge, rfl, ?_⟩
  have hordered := ordered_lacking (hmerged ▸ nodup_mergedKeys hnodup _) parsed
  constructor
  case warning =>
    rw [List.forall₂_map_right_iff, List.forall₂_same]
    exact fun p _ => warning_warningOf typeName fallback p
  case ordered => exact hordered
  case nodup =>
    apply hordered.imp
    rintro p _ (hlt | ⟨-, hlt⟩) rfl
    · exact String.lt_irrefl _ hlt
    · exact Nat.lt_irrefl _ hlt
  case mem_cells => exact mem_lacking_iff
  case not_own =>
    intro language key
    rw [mem_lacking_iff]
    constructor
    · rintro ⟨hkey, entries, hentries, hlacks⟩
      obtain ⟨origin, hsupplied⟩ := supplied_cell hnodup (nodup_of_get? hkeys hentries) key
      have hrow : m.values.get? language = some (m.keys.map (cell fallback entries)) := by
        rw [hvalues, Dict.get?_mapValues, hentries, Option.map_some]
      refine ⟨entries, origin, _, hentries, value?_of_row hrow hkey, hsupplied, ?_⟩
      rintro rfl
      cases hsupplied with
      | own hmem => exact hlacks (List.mem_map.2 ⟨_, hmem, rfl⟩)
    · rintro ⟨entries, origin, text, hentries, hvalue, hsupplied, horigin⟩
      refine ⟨mem_keys_of_value? hvalue, entries, hentries, ?_⟩
      cases hsupplied with
      | own _ => exact absurd rfl horigin
      | fallback hlacks _ => exact hlacks
      | nowhere hlacks _ => exact hlacks
  case not_substituted =>
    intro key hmem
    obtain ⟨-, entries, hentries, hlacks⟩ := mem_lacking_iff.1 hmem
    cases hfallback.symm.trans hentries
    exact hlacks

theorem merge_warns_samples : (∀ entries ∈ samples.values, (keysOf entries).Nodup) ∧
    ∃ fallback m cells warnings, samples.get? "en" = some fallback ∧
      merge "Greeting" samples "en" = .ok (m, warnings) ∧ m.fallbackLanguage = "en" ∧
      m.Warns "Greeting" samples fallback cells warnings ∧
      warnings.map (·.code) = [.fallbackSubstituted, .missingFallbackKey, .missingFallbackKey,
        .missingFallbackKey, .fallbackSubstituted] := by
  obtain ⟨m, cells, warnings, hmerge, hlanguage, hwarns⟩ :=
    merge_warns nodup_samples "Greeting" get?_samples
  refine ⟨nodup_samples, _, m, cells, warnings, get?_samples, hmerge, hlanguage, hwarns, ?_⟩
  have hcodes : (merge "Greeting" samples "en").map (·.2.map (·.code)) =
      .ok [.fallbackSubstituted, .missingFallbackKey, .missingFallbackKey, .missingFallbackKey,
        .fallbackSubstituted] := by decide +kernel
  rw [hmerge] at hcodes
  exact Except.ok.inj hcodes

end Phrasebook
