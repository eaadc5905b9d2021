import Phrasebook.Proofs.FileName
import Phrasebook.Proofs.Path
import Phrasebook.Proofs.Rejection
import Phrasebook.Proofs.Requests

namespace Phrasebook

open Placement

theorem dotted_concat {segments : List String} (h : segments ≠ []) (s : String) :
    dotted (segments ++ [s]) = dotted segments ++ "." ++ s := by
  rw [← fullName_eq_dotted, fullName, if_neg (by simpa using h)]

theorem Language.dot_not_mem_of_canonical? {tag language : String}
    (h : canonical? tag = some language) : '.' ∉ tag.toList := by
  obtain ⟨t, _, _, _, hof, -⟩ := exists_of_canonical? h
  intro hdot
  rcases mem_subtags hdot with hsep | ⟨part, hpart, hdot⟩
  · cases hsep
  · cases hof.isAlphanums part hpart '.' hdot

namespace Placement

theorem dotted_stemParts (s : String) : dotted (stemParts s) = s := by
  apply String.toList_injective
  rw [dotted, String.toList_intercalate, stemParts, List.map_map]
  have hid : String.toList ∘ String.ofList = id := funext fun _ => String.toList_ofList
  rw [hid, List.map_id]
  exact List.intercalate_splitOn '.'

theorem dot_not_mem_of_mem_stemParts {s part : String} (h : part ∈ stemParts s) :
    '.' ∉ part.toList := by
  obtain ⟨piece, hpiece, rfl⟩ := List.mem_map.1 h
  rw [String.toList_ofList]
  exact Path.not_mem_of_mem_splitOn hpiece

theorem stemParts_eq_iff {s : String} {parts : List String}
    (hdots : ∀ part ∈ parts, '.' ∉ part.toList) (hne : parts ≠ []) :
    stemParts s = parts ↔ s = dotted parts := by
  constructor
  · rintro rfl
    exact (dotted_stemParts s).symm
  · rintro rfl
    exact stemParts_dotted hdots hne

theorem stemParts_ne_nil (s : String) : stemParts s ≠ [] := by
  rw [stemParts, Ne, List.map_eq_nil_iff]
  exact List.splitOn_ne_nil '.' s.toList

theorem stemParts_append (front : String) {tag : String} (h : '.' ∉ tag.toList) :
    stemParts (front ++ "." ++ tag) = stemParts front ++ [tag] := by
  have hne := stemParts_ne_nil front
  rw [stemParts_eq_iff, dotted_concat hne, dotted_stemParts]
  · intro part hpart
    rcases List.mem_append.1 hpart with hpart | hpart
    · exact dot_not_mem_of_mem_stemParts hpart
    · exact List.mem_singleton.1 hpart ▸ h
  · exact List.append_ne_nil_of_left_ne_nil hne _

end Placement

def stemOf (name : String) : String :=
  let front := dotted (stemParts name).dropLast
  if front = "" then name else front

theorem stemOf_cases (name : String) : '.' ∉ name.toList ∧ stemOf name = name ∨
    ∃ front ext : String, name = front ++ "." ++ ext ∧ '.' ∉ ext.toList ∧
      stemOf name = if front = "" then name else front := by
  obtain ⟨init, ext, hparts⟩ := (List.eq_nil_or_concat' (stemParts name)).resolve_left
    (stemParts_ne_nil name)
  have hname : name = dotted (init ++ [ext]) := hparts ▸ (dotted_stemParts name).symm
  have hext : '.' ∉ ext.toList := dot_not_mem_of_mem_stemParts (hparts ▸ List.mem_concat_self)
  have hstem : stemOf name = if dotted init = "" then name else dotted init := by
    rw [stemOf, hparts, List.dropLast_concat]
  by_cases hinit : init = []
  · subst hinit
    obtain rfl : name = ext := hname
    exact .inl ⟨hext, hstem⟩
  · rw [dotted_concat hinit] at hname
    exact .inr ⟨dotted init, ext, hname, hext, hstem⟩

theorem splitExtension_ofString {name : String}
    (h : Text.Utf8.ofString name ≠ [Path.dot, Path.dot]) :
    (Path.splitExtension (Text.Utf8.ofString name)).1 = Text.Utf8.ofString (stemOf name) := by
  have dotless {s : String} (hs : '.' ∉ s.toList) : Path.dot ∉ Text.Utf8.ofString s := fun hmem =>
    hs (Text.Utf8.mem_ofString (n := 0x2E) (by decide) hmem)
  rcases stemOf_cases name with ⟨hname, hstem⟩ | ⟨front, ext, hname, hext, hstem⟩
  · rw [Path.splitExtension_of_not_mem (dotless hname), hstem]
  · have hbytes : Text.Utf8.ofString name = Text.Utf8.ofString front ++ Path.dot ::
        Text.Utf8.ofString ext := by
      rw [hname, Text.Utf8.ofString_append, Text.Utf8.ofString_append, List.append_assoc]
      rfl
    rw [hbytes] at h
    have hnil : Text.Utf8.ofString front = [] ↔ front = "" :=
      ⟨fun heq => Text.Utf8.ofString_inj heq, fun heq => heq ▸ rfl⟩
    rw [hbytes, Path.splitExtension_append (dotless hext) h, hstem]
    by_cases hfront : front = ""
    · rw [if_pos (hnil.2 hfront), if_pos hfront, hbytes]
    · rw [if_neg (mt hnil.1 hfront), if_neg hfront]

namespace Placement

variable {parts kept : List String} {language : String}

theorem two_le_length_concat {tag : String} : 2 ≤ (kept ++ [tag]).length ↔ kept ≠ [] := by
  rw [List.length_append, List.length_singleton, Nat.succ_le_succ_iff]
  exact List.length_pos_iff

theorem languageOf_none_iff : languageOf none parts = .ok (language, kept) ↔
    kept ≠ [] ∧ ∃ tag, parts = kept ++ [tag] ∧ Language.canonical? tag = some language := by
  constructor
  · intro h
    unfold languageOf at h
    dsimp only at h
    split at h
    · cases h
    · next tag hlast =>
      split at h
      · cases h
      · next hlength =>
        split at h
        · cases h
        · next htag =>
          cases h
          have hparts := (List.dropLast_append_getLast? tag hlast).symm
          rw [hparts, Nat.not_lt] at hlength
          exact ⟨two_le_length_concat.1 hlength, tag, hparts, htag⟩
  · rintro ⟨hkept, tag, rfl, htag⟩
    have hlength : ¬(kept ++ [tag]).length < 2 := Nat.not_lt.2 (two_le_length_concat.2 hkept)
    simp only [languageOf, List.getLast?_concat, List.dropLast_concat, htag, if_neg hlength]

theorem languageOf_of_repeated {declared tag : String} (hkept : kept ≠ [])
    (htag : Language.canonical? tag = some language)
    (hdeclared : Language.canonical? declared = some language) :
    languageOf (some declared) (kept ++ [tag]) = .ok (language, kept) := by
  have hlength : 1 < (kept ++ [tag]).length := two_le_length_concat.2 hkept
  simp only [languageOf, hdeclared, List.getLast?_concat, Option.bind_some, htag,
    List.dropLast_concat, hlength, and_self, if_true]

theorem languageOf_of_not_repeated {declared : String}
    (hdeclared : Language.canonical? declared = some language)
    (h : ∀ kept tag, kept ≠ [] → parts = kept ++ [tag] →
      Language.canonical? tag ≠ some language) :
    languageOf (some declared) parts = .ok (language, parts) := by
  have hnot : ¬(1 < parts.length ∧ parts.getLast?.bind Language.canonical? = some language) := by
    rintro ⟨hlength, hlast⟩
    obtain ⟨tag, htag, hlanguage⟩ := Option.bind_eq_some_iff.1 hlast
    have hparts := (List.dropLast_append_getLast? tag htag).symm
    rw [hparts] at hlength
    exact h _ tag (two_le_length_concat.1 hlength) hparts hlanguage
  simp only [languageOf, hdeclared, if_neg hnot]

theorem ofStem_eq_ok_iff {leading : List String} {declared : Option String} {stem : String}
    {p : Placement} : ofStem leading declared stem = .ok p ↔
      ∃ segments, languageOf declared (stemParts stem) =
          .ok (p.language, segments ++ [p.baseName]) ∧
        (∀ s ∈ segments ++ [p.baseName], Identifier.isIdentifier s = true) ∧
        p.nameSpace = leading ++ segments := by
  constructor
  · intro h
    obtain ⟨parts, hlanguage, hparts, hlast, hspace⟩ := ofStem_eq_ok h
    rw [← List.dropLast_append_getLast? _ hlast] at hlanguage hparts
    exact ⟨_, hlanguage, hparts, hspace⟩
  · rintro ⟨segments, hlanguage, hparts, hspace⟩
    have hfind : (segments ++ [p.baseName]).find? (!Identifier.isIdentifier ·) = none :=
      List.find?_eq_none.2 fun s hs => by simp [hparts s hs]
    unfold ofStem
    rw [hlanguage]
    simp only [bind, Except.bind, hfind, List.getLast?_concat, List.dropLast_concat, ← hspace]

theorem find_of_name {o : Options} {f : TextFile} {cs : List Path.Component} {name : String}
    (hbelow : (o.resolve f.path).below? o.sourceRoot = some cs)
    (hname : cs.getLast? = some (.name (Text.Utf8.ofString name))) : find o f =
      ofStem (o.rootSegments ++ if o.disableSubNamespace then [] else directoryNames cs) f.language
        (stemOf name) := by
  have hmem : .name (Text.Utf8.ofString name) ∈ (o.resolve f.path).components := by
    rw [Path.below?_eq_some_iff.1 hbelow]
    exact List.mem_append_right _ (List.mem_of_getLast? hname)
  have hstem : (Path.fileStem? cs).bind Text.Utf8.decode? = some (stemOf name) := by
    rw [Path.fileStem?, Path.fileNameOf?, hname, Option.bind_some, Path.Component.name?,
      Option.map_some, splitExtension_ofString (Path.isName_of_mem_components hmem).ne_dots,
      Option.bind_some, Text.Utf8.decode?_ofString]
  unfold find
  simp only [hbelow, hstem]

end Placement

structure Placement.Convention (o : Options) (f : TextFile) (leading : List String)
    (stem : String) : Prop where
  inferred : ∀ {p}, find o { f with language := none } = .ok p ↔ ∃ segments tag,
    stem = dotted (segments ++ [p.baseName, tag]) ∧
      Language.canonical? tag = some p.language ∧
      (∀ s ∈ segments ++ [p.baseName], Identifier.isIdentifier s = true) ∧
      p.nameSpace = leading ++ segments
  repeated : ∀ {front tag declared language}, stem = front ++ "." ++ tag →
    Language.canonical? tag = some language → Language.canonical? declared = some language →
      find o { f with language := some declared } = find o { f with language := none }
  declared : ∀ {declared language}, Language.canonical? declared = some language →
    (∀ front tag, stem = front ++ "." ++ tag → Language.canonical? tag ≠ some language) →
      ∀ {p}, find o { f with language := some declared } = .ok p ↔ ∃ segments,
        stem = dotted (segments ++ [p.baseName]) ∧ p.language = language ∧
          (∀ s ∈ segments ++ [p.baseName], Identifier.isIdentifier s = true) ∧
          p.nameSpace = leading ++ segments
  rejected : ∀ language, (∀ p, find o { f with language := language } ≠ .ok p) →
    ∃ fault, Catalogue.Rejects o { f with language := language } fault

namespace Placement

theorem convention_of_ofStem {o : Options} {f : TextFile} {leading : List String} {stem : String}
    (hfind : ∀ language, find o { f with language := language } = ofStem leading language stem) :
    Convention o f leading stem where
  inferred := by
    intro p
    rw [hfind, ofStem_eq_ok_iff]
    constructor
    · rintro ⟨segments, hlanguage, hids, hspace⟩
      obtain ⟨-, tag, hparts, htag⟩ := languageOf_none_iff.1 hlanguage
      refine ⟨segments, tag, ?_, htag, hids, hspace⟩
      rw [← dotted_stemParts stem, hparts, List.append_assoc]
      rfl
    · rintro ⟨segments, tag, hstem, htag, hids, hspace⟩
      refine ⟨segments, languageOf_none_iff.2 ⟨?_, tag, ?_, htag⟩, hids, hspace⟩
      · exact List.append_ne_nil_of_right_ne_nil _ (List.cons_ne_nil _ _)
      · rw [stemParts_eq_iff, hstem, List.append_assoc]
        · rfl
        · intro part hpart
          rcases List.mem_append.1 hpart with hpart | hpart
          · exact Identifier.dot_not_mem (hids part hpart)
          · exact List.mem_singleton.1 hpart ▸ Language.dot_not_mem_of_canonical? htag
        · exact List.append_ne_nil_of_right_ne_nil _ (List.cons_ne_nil _ _)
  repeated := by
    rintro front tag declared language rfl htag hdeclared
    have hparts := stemParts_append front (Language.dot_not_mem_of_canonical? htag)
    have hne := stemParts_ne_nil front
    rw [hfind, hfind, ofStem, ofStem, hparts, languageOf_of_repeated hne htag hdeclared,
      languageOf_none_iff.2 ⟨hne, tag, rfl, htag⟩]
  declared := by
    intro declared language hdeclared hother p
    have hlanguage : languageOf (some declared) (stemParts stem) =
        .ok (language, stemParts stem) := by
      refine languageOf_of_not_repeated hdeclared fun kept tag hkept hparts => ?_
      refine hother (dotted kept) tag ?_
      rw [← dotted_concat hkept, ← hparts, dotted_stemParts]
    rw [hfind, ofStem_eq_ok_iff, hlanguage]
    constructor
    · rintro ⟨segments, heq, hids, hspace⟩
      obtain ⟨rfl, hparts⟩ := Prod.mk.inj (Except.ok.inj heq)
      exact ⟨segments, hparts ▸ (dotted_stemParts stem).symm, rfl, hids, hspace⟩
    · rintro ⟨segments, hstem, rfl, hids, hspace⟩
      refine ⟨segments, ?_, hids, hspace⟩
      rw [(stemParts_eq_iff (fun s hs => Identifier.dot_not_mem (hids s hs)) ?_).2 hstem]
      exact List.append_ne_nil_of_right_ne_nil _ (List.cons_ne_nil _ _)
  rejected := by
    intro language hnone
    cases h : find o { f with language := language } with
    | error fault => exact ⟨fault, Catalogue.rejects_of_find h⟩
    | ok p => exact absurd h (hnone p)

end Placement

def Options.directorySegments (o : Options) (directories : List (List UInt8)) : List String :=
  if o.disableSubNamespace then []
  else directories.map fun name => Identifier.sanitize (Text.Utf8.toStringLossy name)

/-- The file stands below the source directory, in the given directories and under a name that is
text. -/
def TextFile.StandsAt (f : TextFile) (o : Options) (directories : List (List UInt8))
    (name : String) : Prop :=
  (o.resolve f.path).components =
    o.sourceRoot.components ++ (directories ++ [Text.Utf8.ofString name]).map .name

namespace Placement

theorem directoryNames_map_name (directories : List (List UInt8)) (name : List UInt8) :
    directoryNames ((directories ++ [name]).map .name) =
      directories.map fun name => Identifier.sanitize (Text.Utf8.toStringLossy name) := by
  have hnames : (directories.map Path.Component.name).filterMap Path.Component.name? =
      directories := by
    rw [List.filterMap_map]
    exact List.filterMap_some
  rw [directoryNames, List.map_append, List.map_singleton, List.dropLast_concat, hnames]

/-- A file below the source directory follows the convention, behind the root namespace and its
directories. -/
theorem convention_of_standsAt {o : Options} {f : TextFile} {directories : List (List UInt8)}
    {name : String} (h : f.StandsAt o directories name) :
    Convention o f (o.rootSegments ++ o.directorySegments directories) (stemOf name) := by
  refine convention_of_ofStem fun language => ?_
  have hlast : ((directories ++ [Text.Utf8.ofString name]).map Path.Component.name).getLast? =
      some (.name (Text.Utf8.ofString name)) := by
    rw [List.map_append, List.map_singleton, List.getLast?_concat]
  rw [find_of_name (f := { f with language := language }) (Path.below?_eq_some_iff.2 h) hlast,
    directoryNames_map_name]
  rfl

theorem convention_of_standsAt_sample :
    (TextFile.sample "my-pages/Admin.Menu.fr_ca.csv").StandsAt .sample
        [Text.Utf8.ofString "my-pages"] "Admin.Menu.fr_ca.csv" ∧
      find .sample (.sample "my-pages/Admin.Menu.fr_ca.csv") =
        .ok ⟨["App", "my_pages", "Admin"], "Menu", "fr-CA"⟩ ∧
      find .sample { TextFile.sample "my-pages/Admin.Menu.fr_ca.csv" with
        language := some "FR-ca" } = .ok ⟨["App", "my_pages", "Admin"], "Menu", "fr-CA"⟩ ∧
      find .sample { TextFile.sample "my-pages/Admin.Menu.fr_ca.csv" with
        language := some "de" } = .ok ⟨["App", "my_pages", "Admin", "Menu"], "fr_ca", "de"⟩ := by
  have hstands : (TextFile.sample "my-pages/Admin.Menu.fr_ca.csv").StandsAt .sample
      [Text.Utf8.ofString "my-pages"] "Admin.Menu.fr_ca.csv" := by
    unfold TextFile.StandsAt
    decide +kernel
  have hconvention := convention_of_standsAt hstands
  have hstem : stemOf "Admin.Menu.fr_ca.csv" = "Admin.Menu" ++ "." ++ "fr_ca" := by decide +kernel
  have hplaced : find .sample (.sample "my-pages/Admin.Menu.fr_ca.csv") =
      .ok ⟨["App", "my_pages", "Admin"], "Menu", "fr-CA"⟩ :=
    hconvention.inferred.2 ⟨["Admin"], "fr_ca", hstem, by decide +kernel, by decide +kernel,
      by decide +kernel⟩
  refine ⟨hstands, hplaced, ?_, ?_⟩
  · have htag : Language.canonical? "fr_ca" = some "fr-CA" := by decide +kernel
    exact (hconvention.repeated hstem htag (by decide +kernel)).trans hplaced
  · have hdeclared : Language.canonical? "de" = some "de" := by decide +kernel
    refine (hconvention.declared hdeclared ?_).2
      ⟨["Admin", "Menu"], hstem, rfl, by decide +kernel, by decide +kernel⟩
    intro front tag hsplit hlanguage
    have hparts := stemParts_append front (Language.dot_not_mem_of_canonical? hlanguage)
    have hlast : (stemParts (stemOf "Admin.Menu.fr_ca.csv")).getLast? = some "fr_ca" := by
      decide +kernel
    rw [hsplit, hparts, List.getLast?_concat] at hlast
    cases hlast
    revert hlanguage
    decide +kernel

end Placement

end Phrasebook
