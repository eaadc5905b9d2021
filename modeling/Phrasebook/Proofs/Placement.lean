import Phrasebook.Placement
import Phrasebook.Proofs.Identifier

namespace Phrasebook

theorem Options.isIdentifier_rootSegments {o : Options} (h : o.validate = .ok ()) :
    ∀ s ∈ o.rootSegments, Identifier.isIdentifier s = true := by
  unfold validate at h
  split at h
  · cases h
  · split at h
    · cases h
    · next hall =>
      intro s hs
      simpa using List.find?_eq_none.1 hall s hs

theorem fullName_eq_dotted (nameSpace : List String) (baseName : String) :
    fullName nameSpace baseName = dotted (nameSpace ++ [baseName]) := by
  unfold fullName dotted
  cases nameSpace with
  | nil => exact String.intercalate_singleton.symm
  | cons segment segments =>
    rw [String.intercalate_append_of_ne_nil (List.cons_ne_nil _ _) (List.cons_ne_nil _ _),
      String.intercalate_singleton]
    rfl

theorem Identifier.dot_not_mem {s : String} (h : isIdentifier s = true) : '.' ∉ s.toList :=
  fun hdot => absurd (isWord_of_isIdentifier h '.' hdot) (by decide)

theorem Placement.stemParts_dotted {segments : List String}
    (hdots : ∀ s ∈ segments, '.' ∉ s.toList) (hne : segments ≠ []) :
    stemParts (dotted segments) = segments := by
  have htext : (dotted segments).toList = ['.'].intercalate (segments.map String.toList) :=
    String.toList_intercalate
  have hlists : ∀ cs ∈ segments.map String.toList, '.' ∉ cs := by
    intro cs hcs
    obtain ⟨s, hs, rfl⟩ := List.mem_map.1 hcs
    exact hdots s hs
  rw [stemParts, htext, List.splitOn_intercalate '.' hlists (by simpa using hne), List.map_map]
  simp

/-- Names are told apart by their segments, as these have no dots. -/
theorem dotted_inj {xs ys : List String} (hxs : ∀ s ∈ xs, '.' ∉ s.toList)
    (hys : ∀ s ∈ ys, '.' ∉ s.toList) (hx : xs ≠ []) (hy : ys ≠ [])
    (h : dotted xs = dotted ys) : xs = ys := by
  rw [← Placement.stemParts_dotted hxs hx, h, Placement.stemParts_dotted hys hy]

theorem dotted_ne {segments : List String} (hdots : ∀ s ∈ segments, '.' ∉ s.toList) {s : String}
    (hs : s ∈ segments) (hne : s ≠ "") {name : String}
    (hname : ∀ part ∈ Placement.stemParts name, part = "") : dotted segments ≠ name := by
  rintro rfl
  rw [Placement.stemParts_dotted hdots (List.ne_nil_of_mem hs)] at hname
  exact hne (hname s hs)

namespace Placement

theorem exists_tag_of_languageOf {declared : Option String} {parts kept : List String}
    {language : String} (h : languageOf declared parts = .ok (language, kept)) :
    ∃ tag, declared.or parts.getLast? = some tag ∧ Language.canonical? tag = some language := by
  unfold languageOf at h
  cases declared with
  | some tag =>
    dsimp only at h
    split at h
    · cases h
    · next htag =>
      split at h <;> cases h <;> exact ⟨tag, rfl, htag⟩
  | none =>
    dsimp only at h
    split at h
    · cases h
    · next hlast =>
      split at h
      · cases h
      · split at h
        · cases h
        · next htag =>
          cases h
          exact ⟨_, hlast, htag⟩

theorem ofStem_eq_ok {leading : List String} {declared : Option String} {stem : String}
    {p : Placement} (h : ofStem leading declared stem = .ok p) :
    ∃ parts, languageOf declared (stemParts stem) = .ok (p.language, parts) ∧
      (∀ part ∈ parts, Identifier.isIdentifier part = true) ∧
      parts.getLast? = some p.baseName ∧ p.nameSpace = leading ++ parts.dropLast := by
  unfold ofStem at h
  cases hlanguage : languageOf declared (stemParts stem) with
  | error e =>
    rw [hlanguage] at h
    cases h
  | ok pair =>
    obtain ⟨language, parts⟩ := pair
    rw [hlanguage] at h
    simp only [bind, Except.bind] at h
    split at h
    · cases h
    · next hall =>
      split at h
      · cases h
      · next baseName hlast =>
        cases h
        refine ⟨parts, rfl, ?_, hlast, rfl⟩
        intro part hpart
        simpa using List.find?_eq_none.1 hall part hpart

theorem ofStem_ne_outside (leading : List String) (declared : Option String) (stem : String)
    (root : Path) : ofStem leading declared stem ≠ .error (.outside root) := by
  intro h
  unfold ofStem at h
  cases hlanguage : languageOf declared (stemParts stem) with
  | error e =>
    rw [hlanguage] at h
    cases h
    unfold languageOf at hlanguage
    repeat' split at hlanguage
    all_goals cases hlanguage
  | ok pair =>
    rw [hlanguage] at h
    simp only [bind, Except.bind] at h
    split at h
    · cases h
    · split at h <;> cases h

theorem find_eq_outside_iff {o : Options} {f : TextFile} :
    find o f = .error (.outside o.sourceRoot) ↔
      (o.resolve f.path).below? o.sourceRoot = none := by
  unfold find
  constructor
  · intro h
    split at h
    · next hnone => exact hnone
    · split at h
      · cases h
      · exact absurd h (ofStem_ne_outside _ _ _ _)
  · intro hnone
    rw [hnone]

theorem isIdentifier_directoryNames (cs : List Path.Component) :
    ∀ s ∈ directoryNames cs, Identifier.isIdentifier s = true := by
  intro s hs
  obtain ⟨name, -, rfl⟩ := List.mem_map.1 hs
  exact Identifier.isIdentifier_sanitize _

structure Fits (o : Options) (p : Placement) : Prop where
  language : ∃ tag, Language.canonical? tag = some p.language
  baseName : Identifier.isIdentifier p.baseName = true
  nameSpace : ∃ added, p.nameSpace = o.rootSegments ++ added ∧
    ∀ s ∈ added, Identifier.isIdentifier s = true

theorem fits_of_find {o : Options} {f : TextFile} {p : Placement} (h : find o f = .ok p) :
    Fits o p := by
  unfold find at h
  split at h
  · cases h
  · next cs _ =>
    split at h
    · cases h
    · obtain ⟨parts, hlanguage, hparts, hlast, hspace⟩ := ofStem_eq_ok h
      obtain ⟨tag, -, htag⟩ := exists_tag_of_languageOf hlanguage
      refine ⟨⟨tag, htag⟩, hparts _ (List.mem_of_getLast? hlast), ?_⟩
      refine ⟨_, hspace.trans (List.append_assoc ..), ?_⟩
      intro s hs
      rcases List.mem_append.1 hs with hs | hs
      · split at hs
        · cases hs
        · exact isIdentifier_directoryNames cs s hs
      · exact hparts s (List.dropLast_subset _ hs)

end Placement

def Options.sample : Options where
  baseDir := .ofString "/project"
  sourceDir := .ofString "texts"
  outDir := .ofString "generated"
  rootNamespace := "App"
  fallbackLanguage := "en"
  disableSubNamespace := false

def TextFile.sample (name : String) : TextFile where
  path := .ofString ("/project/texts/" ++ name)
  format := .csv
  language := none
  content := Text.Utf8.ofString "Hello,Good day"
  encoding := .utf8

end Phrasebook
