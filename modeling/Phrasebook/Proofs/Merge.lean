import Phrasebook.Merge
import Phrasebook.Proofs.Contents
import Phrasebook.Proofs.Dict

namespace Phrasebook

namespace Merged

theorem mem_newKeys_iff {known ks : List String} {k : String} :
    k ∈ newKeys known ks ↔ k ∈ ks ∧ k ∉ known := by
  induction ks generalizing known with
  | nil => simp [newKeys]
  | cons j ks ih =>
    simp only [newKeys]
    split
    · next hj =>
      rw [ih, List.mem_cons]
      constructor
      · exact fun h => ⟨.inr h.1, h.2⟩
      · rintro ⟨rfl | hk, hknown⟩
        · exact absurd hj hknown
        · exact ⟨hk, hknown⟩
    · next hj =>
      rw [List.mem_cons, ih, List.mem_cons, List.mem_cons]
      by_cases hkj : k = j
      · subst hkj
        simp [hj]
      · simp [hkj]

theorem newKeys_of_subset {known ks : List String} (h : ks ⊆ known) : newKeys known ks = [] := by
  apply List.eq_nil_iff_forall_not_mem.2
  intro k hk
  obtain ⟨hmem, hnew⟩ := mem_newKeys_iff.1 hk
  exact hnew (h hmem)

theorem nodup_newKeys (known ks : List String) : (newKeys known ks).Nodup := by
  induction ks generalizing known with
  | nil => exact .nil
  | cons j ks ih =>
    simp only [newKeys]
    split
    · exact ih known
    · apply List.nodup_cons.2
      refine ⟨?_, ih (j :: known)⟩
      intro hj
      exact (mem_newKeys_iff.1 hj).2 List.mem_cons_self

theorem nodup_mergedKeys {fallback : List Entry} (h : (keysOf fallback).Nodup)
    (others : List (List Entry)) : (mergedKeys fallback others).Nodup := by
  apply List.nodup_append.2
  refine ⟨h, nodup_newKeys _ _, ?_⟩
  intro j hj k hk hjk
  exact (mem_newKeys_iff.1 hk).2 (hjk ▸ hj)

theorem mem_mergedKeys_iff {fallback : List Entry} {others : List (List Entry)} {k : String} :
    k ∈ mergedKeys fallback others ↔
      k ∈ keysOf fallback ∨ ∃ entries ∈ others, k ∈ keysOf entries := by
  rw [mergedKeys, List.mem_append, mem_newKeys_iff, List.mem_flatMap]
  by_cases h : k ∈ keysOf fallback <;> simp [h]

theorem textOf_eq_some_iff {entries : List Entry} (h : (keysOf entries).Nodup)
    {key text : String} : textOf entries key = some text ↔ ⟨key, text⟩ ∈ entries := by
  have hrev : ((entries.reverse).map (·.key)).Nodup := by
    rw [List.map_reverse]
    exact List.nodup_reverse.2 h
  rw [textOf, List.findRev?_eq_find?_reverse, Option.map_eq_some_iff]
  constructor
  · rintro ⟨e, he, rfl⟩
    obtain ⟨hmem, rfl⟩ := (Entry.find?_key_eq_some_iff hrev).1 he
    exact List.mem_reverse.1 hmem
  · intro hmem
    exact ⟨_, (Entry.find?_key_eq_some_iff hrev).2 ⟨List.mem_reverse.2 hmem, rfl⟩, rfl⟩

theorem textOf_entries {c : Contents} (h : (keysOf c.entries).Nodup) (key : String) :
    textOf c.entries key = c.get? key := by
  apply Option.ext
  intro text
  rw [textOf_eq_some_iff h, Contents.get?, Option.map_eq_some_iff]
  constructor
  · intro hmem
    exact ⟨_, (Entry.find?_key_eq_some_iff h).2 ⟨hmem, rfl⟩, rfl⟩
  · rintro ⟨e, he, rfl⟩
    obtain ⟨hmem, rfl⟩ := (Entry.find?_key_eq_some_iff h).1 he
    exact hmem

theorem cell_of_mem {fallback entries : List Entry} (h : (keysOf entries).Nodup)
    {key text : String} (hmem : ⟨key, text⟩ ∈ entries) : cell fallback entries key = text := by
  rw [cell, (textOf_eq_some_iff h).2 hmem]
  rfl

theorem isError_of_warning? {typeName language : String} {fallback entries : List Entry}
    {key : String} {d : Diagnostic} (h : warning? typeName language fallback entries key = some d) :
    d.isError = false := by
  unfold warning? at h
  split at h
  · cases h
  · split at h <;> cases h <;> rfl

end Merged

open Merged

variable {fallbackLanguage : String} {parsed : Dict (List Entry)}

theorem merge_eq_ok (typeName : String) {fallback : List Entry}
    (h : parsed.get? fallbackLanguage = some fallback) :
    ∃ m warnings, merge typeName parsed fallbackLanguage = .ok (m, warnings) ∧
      m.fallbackLanguage = fallbackLanguage ∧
      m.keys = mergedKeys fallback (parsed.erase fallbackLanguage).values ∧
      (m.values = parsed.mapValues fun _ entries => m.keys.map (cell fallback entries)) ∧
      ∀ d ∈ warnings, d.isError = false := by
  unfold merge
  rw [h]
  refine ⟨_, _, rfl, rfl, rfl, rfl, ?_⟩
  intro d hd
  obtain ⟨p, -, hd⟩ := List.mem_flatMap.1 hd
  obtain ⟨key, -, hkey⟩ := List.mem_filterMap.1 hd
  exact isError_of_warning? hkey

theorem merge_eq_error (typeName : String) (h : parsed.get? fallbackLanguage = none) :
    merge typeName parsed fallbackLanguage =
      .error (.missingFallback typeName fallbackLanguage) := by
  unfold merge
  rw [h]

namespace Merged

theorem mem_keys_of_get? {fallback entries : List Entry} {language key : String}
    (h : parsed.get? fallbackLanguage = some fallback) (hl : parsed.get? language = some entries)
    (hkey : key ∈ keysOf entries) :
    key ∈ mergedKeys fallback (parsed.erase fallbackLanguage).values := by
  rw [mem_mergedKeys_iff]
  by_cases hlanguage : language = fallbackLanguage
  · subst hlanguage
    cases h.symm.trans hl
    exact .inl hkey
  · refine .inr ⟨entries, Dict.mem_values_iff.2 ⟨language, ?_⟩, hkey⟩
    rw [Dict.get?_erase, if_neg hlanguage, hl]

end Merged

end Phrasebook
