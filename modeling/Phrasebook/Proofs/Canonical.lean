import Phrasebook.Proofs.Partition
import Phrasebook.Proofs.Path
import Phrasebook.Proofs.Requests

/-!
Canonical forms of language tags. All spellings of a tag have the same one, and it is its own
canonical form unless its first variant, with neither script nor region before it, has four letters:
such a variant is a script when it is read again. Languages of files are told apart by these forms.
-/

namespace Phrasebook

namespace Language

def Matches (c d : Char) : Prop :=
  isSeparator c = true ∧ isSeparator d = true ∨ c.toLower = d.toLower

/-- The same tag but for case and the kind of separator. -/
def Respells (s t : String) : Prop := List.Forall₂ Matches s.toList t.toList

theorem foldChar_eq_hyphen_iff {c : Char} : foldChar c = '-' ↔ isSeparator c = true := by
  refine ⟨fun h => ?_, foldChar_of_isSeparator⟩
  rw [← isSeparator_foldChar, h]
  rfl

theorem isSeparator_congr {c d : Char} (h : c.toLower = d.toLower) :
    isSeparator c = isSeparator d := by
  rw [← isSeparator_toLower, h, isSeparator_toLower]

theorem matches_iff {c d : Char} : Matches c d ↔ foldChar c = foldChar d := by
  cases hc : isSeparator c with
  | true =>
    rw [foldChar_of_isSeparator hc, eq_comm, foldChar_eq_hyphen_iff]
    refine ⟨?_, fun hd => .inl ⟨hc, hd⟩⟩
    rintro (⟨-, hd⟩ | h)
    · exact hd
    · rw [← isSeparator_congr h, hc]
  | false =>
    rw [foldChar_of_not_isSeparator hc]
    constructor
    · rintro (⟨h, -⟩ | h)
      · cases hc.symm.trans h
      · rw [foldChar_of_not_isSeparator ((isSeparator_congr h).symm.trans hc), h]
    · intro h
      have hd : isSeparator d = false := by
        rw [← isSeparator_foldChar, ← h, isSeparator_toLower, hc]
      exact .inr (h.trans (foldChar_of_not_isSeparator hd))

theorem forall₂_matches_iff {cs ds : List Char} :
    List.Forall₂ Matches cs ds ↔ fold cs = fold ds := by
  have hrel : Matches = fun c d => foldChar c = foldChar d := by
    funext c d
    exact propext matches_iff
  rw [fold, fold, ← List.forall₂_eq_eq_eq, List.forall₂_map_left_iff, List.forall₂_map_right_iff,
    hrel]

theorem respells_iff {s t : String} : Respells s t ↔ fold s.toList = fold t.toList :=
  forall₂_matches_iff

@[simp] theorem title_title (cs : List Char) : title (title cs) = title cs := by
  rw [← title_lower (title cs), lower_title, title_lower]

@[simp] theorem upper_upper (cs : List Char) : upper (upper cs) = upper cs := by
  rw [← upper_lower (upper cs), lower_upper, upper_lower]

theorem ne_title {v : List Char} (hscript : isScript v = true) (hlower : lower v = v) :
    title v ≠ v := by
  rw [isScript, Bool.and_eq_true] at hscript
  cases v with
  | nil => cases hscript.1
  | cons c cs =>
    intro htitle
    have halpha : c.isAlpha = true := List.all_eq_true.1 hscript.2 c List.mem_cons_self
    have hupper := congrArg Char.toNat (List.cons.inj htitle).1
    have hlower := congrArg Char.toNat (List.cons.inj hlower).1
    rw [isAlpha_iff] at halpha
    rw [toNat_toUpper] at hupper
    rw [toNat_toLower] at hlower
    grind

theorem takePart_toList {p : List Char → Bool} {found : Option (List Char)}
    (hfound : ∀ part ∈ found, p part = true) {rest : List (List Char)}
    (hrest : found = none → ∀ part ∈ rest.head?, p part = false) :
    takePart p (found.toList ++ rest) = (found, rest) := by
  cases found with
  | none => exact takePart_of_head (hrest rfl)
  | some part => exact takePart_of_pos (hfound part rfl) rest

namespace Tag

theorem ofSubtags?_eq_some {language : List Char} {script region : Option (List Char)}
    {variants : List (List Char)} (hlanguage : isLanguage language = true)
    (hscript : ∀ s ∈ script, isScript s = true) (hregion : ∀ r ∈ region, isRegion r = true)
    (hvariants : ∀ v ∈ variants, isVariant v = true)
    (hfirst : script = none → region = none → ∀ v ∈ variants.head?, isScript v = false) :
    ofSubtags? (language :: (script.toList ++ region.toList ++ variants)) =
      some ⟨lower language, script.map title, region.map upper,
        sortVariants (variants.map lower)⟩ := by
  have hbehindScript : script = none → ∀ part ∈ (region.toList ++ variants).head?,
      isScript part = false := by
    intro hnone part hpart
    cases region with
    | none => exact hfirst hnone rfl part hpart
    | some r => exact Option.some.inj hpart ▸ isScript_of_isRegion (hregion r rfl)
  have hbehindRegion : region = none → ∀ part ∈ variants.head?, isRegion part = false :=
    fun _ part hpart => isRegion_of_isVariant (hvariants part (List.mem_of_mem_head? hpart))
  have hcheck : (isLanguage language && variants.all isVariant) = true := by
    rw [hlanguage, List.all_eq_true.2 hvariants]
    rfl
  rw [List.append_assoc]
  unfold ofSubtags?
  simp only [takePart_toList hscript hbehindScript, takePart_toList hregion hbehindRegion,
    if_pos hcheck]

structure IsProper (t : Tag) : Prop where
  language : isLanguage t.language = true ∧ lower t.language = t.language
  script : ∀ s ∈ t.script, isScript s = true ∧ title s = s
  region : ∀ r ∈ t.region, isRegion r = true ∧ upper r = r
  variants : ∀ v ∈ t.variants, isVariant v = true ∧ lower v = v
  ascending : t.variants.Pairwise (· < ·)

theorem Of.isProper {t : Tag} {parts : List (List Char)} {language : List Char}
    {script region : Option (List Char)} (h : t.Of parts language script region) : t.IsProper := by
  obtain ⟨-, hlanguage, hscript, hregion, hvariants, rfl⟩ := h
  constructor
  case language => exact ⟨(isLanguage_lower language).trans hlanguage, lower_lower language⟩
  case script =>
    intro _ hmapped
    obtain ⟨s, hs, rfl⟩ := Option.map_eq_some_iff.1 hmapped
    exact ⟨(isScript_title s).trans (hscript s hs), title_title s⟩
  case region =>
    intro _ hmapped
    obtain ⟨r, hr, rfl⟩ := Option.map_eq_some_iff.1 hmapped
    exact ⟨(isRegion_upper r).trans (hregion r hr), upper_upper r⟩
  case variants =>
    intro _ hsorted
    obtain ⟨v, hv, rfl⟩ := List.mem_map.1 (mem_of_mem_sortVariants hsorted)
    exact ⟨(isVariant_lower v).trans (hvariants v hv), lower_lower v⟩
  case ascending => exact pairwise_sortVariants _

/-- The first variant has the form of a script, and neither script nor region stands before it. -/
def IsAmbiguous (t : Tag) : Prop :=
  t.script = none ∧ t.region = none ∧ ∃ v ∈ t.variants.head?, isScript v = true

namespace IsProper

variable {t : Tag} (h : t.IsProper)

include h

theorem isAlphanums : ∀ part ∈ t.parts, IsAlphanums part := by
  simp only [Tag.parts, List.mem_cons, List.mem_append, Option.mem_toList]
  rintro part (rfl | (hscript | hregion) | hvariant)
  · exact isAlphanums_of_isLanguage h.language.1
  · exact isAlphanums_of_isScript (h.script part hscript).1
  · exact isAlphanums_of_isRegion (h.region part hregion).1
  · exact isAlphanums_of_isVariant (h.variants part hvariant).1

theorem subtags_render : subtags t.render = t.parts :=
  subtags_intercalate (List.cons_ne_nil _ _) h.isAlphanums

theorem map_lower_variants : t.variants.map lower = t.variants :=
  (List.map_congr_left fun v hv => (h.variants v hv).2).trans (List.map_id _)

theorem map_script : t.script.map title = t.script :=
  (Option.map_congr fun s hs => (h.script s hs).2).trans Option.map_id'

theorem map_region : t.region.map upper = t.region :=
  (Option.map_congr fun r hr => (h.region r hr).2).trans Option.map_id'

theorem ofSubtags?_parts (hclear : ¬t.IsAmbiguous) : ofSubtags? t.parts = some t := by
  rw [Tag.parts, ofSubtags?_eq_some h.language.1 (fun s hs => (h.script s hs).1)
    (fun r hr => (h.region r hr).1) fun v hv => (h.variants v hv).1, h.language.2, h.map_script,
    h.map_region, h.map_lower_variants, sortVariants_of_pairwise h.ascending]
  intro hscript hregion v hv
  rw [← Bool.not_eq_true]
  exact fun hv' => hclear ⟨hscript, hregion, v, hv, hv'⟩

/-- If it is, its first variant is read as a script. -/
theorem ofSubtags?_parts_of_isAmbiguous {v : List Char} {vs : List (List Char)}
    (hscript : t.script = none) (hregion : t.region = none) (hvs : t.variants = v :: vs)
    (hv : isScript v = true) :
    ofSubtags? t.parts = some ⟨t.language, some (title v), none, vs⟩ := by
  have hvariants := h.variants
  have hascending := h.ascending
  have hlower := h.map_lower_variants
  rw [hvs] at hvariants hascending hlower
  have hparts : t.parts =
      t.language :: ((some v).toList ++ (none : Option (List Char)).toList ++ vs) := by
    rw [Tag.parts, hscript, hregion, hvs]
    rfl
  rw [hparts, ofSubtags?_eq_some h.language.1 (fun _ hs => Option.some.inj hs ▸ hv)
    (fun r hr => absurd hr (Option.not_mem_none r))
    (fun w hw => (hvariants w (List.mem_cons_of_mem v hw)).1)
    (fun hnone => absurd hnone (Option.some_ne_none v)), h.language.2,
    (List.cons.inj hlower).2, sortVariants_of_pairwise (List.pairwise_cons.1 hascending).2]
  rfl

theorem of_isAmbiguous {v : List Char} {vs : List (List Char)} (hvs : t.variants = v :: vs)
    (hv : isScript v = true) : IsProper ⟨t.language, some (title v), none, vs⟩ where
  language := h.language
  script := by
    intro s hs
    obtain rfl := Option.some.inj hs
    exact ⟨(isScript_title v).trans hv, title_title v⟩
  region r hr := absurd hr (Option.not_mem_none r)
  variants w hw := h.variants w (hvs ▸ List.mem_cons_of_mem v hw)
  ascending := (List.pairwise_cons.1 (hvs ▸ h.ascending)).2

theorem exists_ofSubtags?_parts : ∃ t', ofSubtags? t.parts = some t' ∧ t'.IsProper ∧
    ¬t'.IsAmbiguous ∧ t'.parts.map lower = t.parts.map lower ∧
      (t'.parts = t.parts ↔ ¬t.IsAmbiguous) := by
  by_cases hambiguous : t.IsAmbiguous
  · obtain ⟨hscript, hregion, v, hv, hisScript⟩ := id hambiguous
    obtain ⟨vs, hvs⟩ := List.head?_eq_some_iff.1 hv
    have hlower : lower v = v := (h.variants v (hvs ▸ List.mem_cons_self)).2
    have hparts : t.parts = t.language :: v :: vs := by
      rw [Tag.parts, hscript, hregion, hvs]
      rfl
    refine ⟨_, h.ofSubtags?_parts_of_isAmbiguous hscript hregion hvs hisScript,
      h.of_isAmbiguous hvs hisScript, fun h => absurd h.1 (Option.some_ne_none _), ?_,
      iff_of_false ?_ (not_not_intro hambiguous)⟩
    · rw [hparts]
      simp [Tag.parts]
    · rw [hparts]
      intro hsame
      exact ne_title hisScript hlower (List.cons.inj (List.cons.inj hsame).2).1
  · exact ⟨t, h.ofSubtags?_parts hambiguous, h, hambiguous, rfl, iff_of_true rfl hambiguous⟩

end IsProper

end Tag

theorem canonical?_eq_some_iff {s c : String} : canonical? s = some c ↔
    ∃ t, Tag.ofChars? s.toList = some t ∧ .ofList t.render = c := by
  rw [canonical?, canonicalChars?, Option.map_map, Option.map_eq_some_iff]
  rfl

theorem isProper_of_ofChars? {cs : List Char} {t : Tag} (h : Tag.ofChars? cs = some t) :
    t.IsProper := by
  obtain ⟨_, _, _, hof⟩ := Tag.of_ofSubtags? h
  exact hof.isProper

theorem canonical?_render {t : Tag} (h : t.IsProper) : canonical? (.ofList t.render) =
    (Tag.ofSubtags? t.parts).map fun t => .ofList t.render := by
  rw [canonical?, canonicalChars?, Option.map_map, String.toList_ofList, Tag.ofChars?,
    h.subtags_render]
  rfl

/-- The tag has neither script nor region, and the least of its variants has four letters. -/
def IsAmbiguous (s : String) : Prop := ∃ t, Tag.ofChars? s.toList = some t ∧ t.IsAmbiguous

/-- What the canonical form of a tag is: plain, the same for all spellings, and read again as a
spelling of itself that does not change any more. -/
structure IsCanonicalFor (c s : String) : Prop where
  plain : ∀ x ∈ c.toList, x ≠ '_' ∧ x ≠ '.' ∧ Text.isBlank x = false
  respelled : ∀ {r}, Respells r s → canonical? r = some c
  again : ∃ d, canonical? c = some d ∧ canonical? d = some d ∧ Respells d c
  self_iff : canonical? c = some c ↔ ¬IsAmbiguous s

theorem plain_of_isTagChar {x : Char} (h : isTagChar x = true) :
    x ≠ '_' ∧ x ≠ '.' ∧ Text.isBlank x = false := by
  refine ⟨?_, ?_, ?_⟩
  · rintro rfl
    cases h
  · rintro rfl
    cases h
  · simp only [isTagChar, Bool.or_eq_true, decide_eq_true_eq] at h
    rcases h with h | rfl
    · exact Text.isBlank_of_isAlphanum h
    · rfl

theorem isCanonicalFor {s c : String} (h : canonical? s = some c) : IsCanonicalFor c s := by
  obtain ⟨t, ht, rfl⟩ := canonical?_eq_some_iff.1 h
  have hproper := isProper_of_ofChars? ht
  obtain ⟨t', hread, hproper', hclear, hlower, hsame⟩ := hproper.exists_ofSubtags?_parts
  have hagain : canonical? (.ofList t.render) = some (.ofList t'.render) := by
    rw [canonical?_render hproper, hread, Option.map_some]
  constructor
  case plain => exact fun x hx => plain_of_isTagChar (isTagChar_canonical? h x hx)
  case respelled => exact fun hr => (canonical?_congr (respells_iff.1 hr)).trans h
  case again =>
    refine ⟨_, hagain, ?_, ?_⟩
    · rw [canonical?_render hproper', hproper'.ofSubtags?_parts hclear, Option.map_some]
    · rw [respells_iff, String.toList_ofList, String.toList_ofList, fold_eq_intercalate,
        fold_eq_intercalate, hproper.subtags_render, hproper'.subtags_render, hlower]
  case self_iff =>
    have hself : IsAmbiguous s ↔ t.IsAmbiguous := by
      refine ⟨?_, fun hambiguous => ⟨t, ht, hambiguous⟩⟩
      rintro ⟨_, hother, hambiguous⟩
      cases ht.symm.trans hother
      exact hambiguous
    rw [hself, ← hsame, hagain, Option.some.injEq, String.ofList_inj]
    refine ⟨fun hrender => ?_, congrArg (['-'].intercalate ·)⟩
    rw [← hproper'.subtags_render, hrender, hproper.subtags_render]

end Language

def TextFile.tag? (o : Options) (f : TextFile) : Option String :=
  f.language.or (((Path.fileStem? (o.resolve f.path).components).bind Text.Utf8.decode?).bind
    fun stem => (Placement.stemParts stem).getLast?)

theorem Placement.exists_tag_of_find {o : Options} {f : TextFile} {p : Placement}
    (h : find o f = .ok p) :
    ∃ tag, f.tag? o = some tag ∧ Language.canonical? tag = some p.language := by
  unfold find at h
  split at h
  · cases h
  · next cs hbelow =>
    split at h
    · cases h
    · next stem hstem =>
      obtain ⟨parts, hlanguage, -⟩ := ofStem_eq_ok h
      have hsame : Path.fileStem? (o.resolve f.path).components = Path.fileStem? cs := by
        obtain ⟨_, hfile, -⟩ := Option.bind_eq_some_iff.1 hstem
        obtain ⟨_, hname, -⟩ := Option.map_eq_some_iff.1 hfile
        obtain ⟨c, hlast, -⟩ := Option.bind_eq_some_iff.1 hname
        rw [Path.below?_eq_some_iff.1 hbelow, Path.fileStem?, Path.fileNameOf?,
          List.getLast?_append, hlast]
        rw [Path.fileStem?, Path.fileNameOf?, hlast]
        rfl
      rw [TextFile.tag?, hsame, hstem]
      exact exists_tag_of_languageOf hlanguage

def TextFile.IsSpelledAt (o : Options) (name tag : String) (f : TextFile) : Prop :=
  ∃ p s, Placement.find o f = .ok p ∧ p.fullName = name ∧ f.tag? o = some s ∧
    Language.canonical? s = Language.canonical? tag

namespace Catalogue

open Placement

/-- The files of a batch have the same language exactly if their tags have the same canonical
form. -/
structure TellsApart (o : Options) (files : List TextFile) (fates : List Fate) : Prop where
  tagged : ∀ {f p}, find o f = .ok p →
    ∃ tag, f.tag? o = some tag ∧ Language.canonical? tag = some p.language
  duplicate : ∀ {j : Nat} {g q t}, files[j]? = some g → find o g = .ok q → g.tag? o = some t →
    ((∃ first, fates[j]? = some (Fate.duplicate q.fullName q.language first)) ↔
      ∃ (i : Nat) (f : TextFile), i < j ∧ files[i]? = some f ∧ f.IsSpelledAt o q.fullName t)
  fallback : ∀ {code name r}, o.fallbackTag = .ok code →
    (ofFiles o files).types.get? name = some r →
      ((∃ f, r.files.get? code = some f) ↔ ∃ f ∈ files, f.IsSpelledAt o name o.fallbackLanguage)

variable {o : Options}

theorem isAt_iff_tag {name language t : String} (ht : Language.canonical? t = some language)
    {f : TextFile} : isAt o name language f = true ↔ f.IsSpelledAt o name t := by
  rw [isAt_iff, TextFile.IsSpelledAt, ht]
  constructor
  · rintro ⟨p, hp, hname, rfl⟩
    obtain ⟨s, hs, hcanonical⟩ := exists_tag_of_find hp
    exact ⟨p, s, hp, hname, hs, hcanonical⟩
  · rintro ⟨p, s, hp, hname, hs, hcanonical⟩
    obtain ⟨s', hs', hcanonical'⟩ := exists_tag_of_find hp
    cases hs.symm.trans hs'
    exact ⟨p, hp, hname, Option.some.inj (hcanonical'.symm.trans hcanonical)⟩

theorem canonical?_of_fallbackTag {code : String} (h : o.fallbackTag = .ok code) :
    Language.canonical? o.fallbackLanguage = some code := by
  unfold Options.fallbackTag at h
  split at h
  · next htag =>
    cases h
    exact htag
  · cases h

theorem tellsApart_of_accounts {files : List TextFile} {fates : List Fate}
    {conflicts : Dict Error} (h : Accounts o files (ofFiles o files) fates conflicts) :
    TellsApart o files fates where
  tagged := exists_tag_of_find
  duplicate := by
    intro j g q t hg hq ht
    have hcanonical : Language.canonical? t = some q.language := by
      obtain ⟨t', ht', hcanonical⟩ := exists_tag_of_find hq
      cases ht.symm.trans ht'
      exact hcanonical
    constructor
    · rintro ⟨first, hfate⟩
      generalize hfateOf : Fate.duplicate q.fullName q.language first = fate at hfate
      cases (h.meets hg).2 hfate with
      | unrecognized _ => cases hfateOf
      | stored _ _ => cases hfateOf
      | dropped _ _ _ _ => cases hfateOf
      | @duplicate p i f hp hindex hlt hf =>
        cases hq.symm.trans hp
        obtain ⟨hi, hat, -⟩ := List.findIdx?_eq_some_iff_getElem.1 hindex
        exact ⟨i, _, hlt, List.getElem?_eq_getElem hi, (isAt_iff_tag hcanonical).1 hat⟩
    · rintro ⟨i, f, hlt, hf, hspelled⟩
      have hat : isAt o q.fullName q.language f = true := (isAt_iff_tag hcanonical).2 hspelled
      obtain ⟨hi, rfl⟩ := List.getElem?_eq_some_iff.1 hf
      obtain ⟨k, hk⟩ := Option.isSome_iff_exists.1
        (Language.exists_findIdx?_of_mem (List.getElem_mem hi) hat)
      obtain ⟨hklt, -, hbefore⟩ := List.findIdx?_eq_some_iff_getElem.1 hk
      have hle : k ≤ i := Nat.le_of_not_lt fun hik => hbefore i hik hat
      exact ⟨_, (h.meets hg).1 (.duplicate hq hk (Nat.lt_of_le_of_lt hle hlt)
        (List.getElem?_eq_getElem hklt))⟩
  fallback := by
    intro code name r hcode hr
    have hcollect : (collect o files).types.get? name = some r := (get?_dropConflicts.1 hr).1
    rw [← file?_of_get? hcollect, file?_collect, ← Option.isSome_iff_exists, List.find?_isSome]
    simp only [isAt_iff_tag (canonical?_of_fallbackTag hcode)]

/-- All spellings of a tag have one canonical form, if any, and files are told apart by it. -/
theorem canonical_tellsApart (o : Options) (files : List TextFile) :
    (∀ s, match Language.canonical? s with
      | some c => Language.IsCanonicalFor c s
      | none => ∀ r, Language.Respells r s → Language.canonical? r = none) ∧
    ∃ fates conflicts, Accounts o files (ofFiles o files) fates conflicts ∧
      TellsApart o files fates := by
  constructor
  · intro s
    split
    · next hs => exact Language.isCanonicalFor hs
    · next hs =>
      intro r hr
      rw [Language.canonical?_congr (Language.respells_iff.1 hr), hs]
  · obtain ⟨fates, conflicts, haccounts⟩ := accounts_ofFiles (o := o) files
    exact ⟨fates, conflicts, haccounts, tellsApart_of_accounts haccounts⟩

theorem exists_canonical_read_otherwise :
    ¬∀ s c, Language.canonical? s = some c → Language.canonical? c = some c := by
  intro h
  have hagain := h "en-biske-abcd" "en-abcd-biske" (by decide +kernel)
  revert hagain
  decide +kernel

end Catalogue

end Phrasebook
