import Phrasebook.Proofs.Canonical

/-!
Which available language serves a request: the same tag, else one of its primary language and a bare
one first, else the fallback. Canonical languages serve themselves unless another one before them
has the same canonical form.
-/

namespace Phrasebook

namespace Language

def IsPadded (cs : List Char) (s : String) : Prop :=
  ∃ before behind, s.toList = before ++ cs ++ behind ∧
    (∀ c ∈ before, Text.isBlank c = true) ∧ ∀ c ∈ behind, Text.isBlank c = true

/-- The same tag but for blanks around it, case and the kind of separator. -/
def Alike (s t : String) : Prop :=
  ∃ cs ds, IsPadded cs s ∧ IsPadded ds t ∧ List.Forall₂ Matches cs ds

theorem isBlank_foldChar (c : Char) : Text.isBlank (foldChar c) = Text.isBlank c := by
  cases h : isSeparator c with
  | true => rw [foldChar_of_isSeparator h, isBlank_of_isSeparator h, Text.isBlank]; rfl
  | false =>
    rw [foldChar_of_not_isSeparator h]
    exact apply_toLower (fun c hc => Text.isBlank_of_isAlphanum (isAlphanum_of_isAlpha c hc)) c

theorem trimmed_fold (cs : List Char) : Text.trimEnd (Text.trimStart (fold cs)) =
    fold (Text.trimEnd (Text.trimStart cs)) := by
  have hblank : Text.isBlank ∘ foldChar = Text.isBlank := funext isBlank_foldChar
  simp only [Text.trimEnd, Text.trimStart, fold, List.dropWhile_map, ← List.map_reverse, hblank]

theorem comparable_eq_fold (s : String) : comparable s = .ofList (fold (Text.trim s).toList) := by
  rw [comparable, Text.lowerAscii, String.toList_ofList, List.map_map]
  rfl

theorem comparable_of_isPadded {cs : List Char} {s : String} (h : IsPadded cs s) :
    comparable s = .ofList (Text.trimEnd (Text.trimStart (fold cs))) := by
  obtain ⟨before, behind, hs, hbefore, hbehind⟩ := h
  rw [comparable_eq_fold, Text.trim, String.toList_ofList, hs, Text.trim_padded hbefore hbehind,
    trimmed_fold]

theorem isPadded_trim (s : String) : IsPadded (Text.trim s).toList s := by
  rw [Text.trim, String.toList_ofList]
  exact Text.exists_padding s.toList

theorem alike_iff {s t : String} : Alike s t ↔ comparable s = comparable t := by
  constructor
  · rintro ⟨cs, ds, hs, ht, hmatches⟩
    rw [comparable_of_isPadded hs, comparable_of_isPadded ht, forall₂_matches_iff.1 hmatches]
  · intro h
    rw [comparable_eq_fold, comparable_eq_fold, String.ofList_inj] at h
    exact ⟨_, _, isPadded_trim s, isPadded_trim t, forall₂_matches_iff.2 h⟩

def front (s : String) : List Char := (Text.trim s).toList.takeWhile (!isSeparator ·)

def SharePrimary (s t : String) : Prop := List.Forall₂ Matches (front s) (front t)

def IsBare (s : String) : Prop := ∀ c ∈ (Text.trim s).toList, isSeparator c = false

theorem primary_comparable_eq (s : String) :
    primary (comparable s) = .ofList (fold (front s)) := by
  have hmark : (fun c => decide (c ≠ '-')) ∘ foldChar = (!isSeparator ·) := by
    funext c
    rw [Function.comp_apply]
    cases h : isSeparator c with
    | true =>
      rw [foldChar_of_isSeparator h]
      rfl
    | false =>
      have hne : foldChar c ≠ '-' := fun heq =>
        Bool.false_ne_true (h.symm.trans (foldChar_eq_hyphen_iff.1 heq))
      rw [decide_eq_true hne]
      rfl
  rw [primary, comparable_eq_fold, String.toList_ofList, fold, List.takeWhile_map, hmark]
  rfl

theorem sharePrimary_iff {s t : String} :
    SharePrimary s t ↔ primary (comparable s) = primary (comparable t) := by
  rw [primary_comparable_eq, primary_comparable_eq, String.ofList_inj]
  exact forall₂_matches_iff

theorem Alike.sharePrimary {s t : String} (h : Alike s t) : SharePrimary s t :=
  sharePrimary_iff.2 (congrArg primary (alike_iff.1 h))

theorem comparable_eq_primary_comparable_iff {s t : String} :
    comparable s = primary (comparable t) ↔ SharePrimary s t ∧ IsBare s := by
  have hfront : IsBare s → front s = (Text.trim s).toList := fun hbare =>
    List.takeWhile_eq_self_iff.2 fun c hc => by rw [hbare c hc]; rfl
  rw [primary_comparable_eq, comparable_eq_fold, String.ofList_inj, SharePrimary,
    forall₂_matches_iff]
  constructor
  · intro h
    have hbare : IsBare s := by
      intro c hc
      have hmem : foldChar c ∈ fold (front t) := h ▸ List.mem_map_of_mem hc
      obtain ⟨d, hd, heq⟩ := List.mem_map.1 hmem
      have hsep := List.mem_takeWhile_imp hd
      rw [← isSeparator_foldChar, ← heq, isSeparator_foldChar]
      simpa using hsep
    exact ⟨by rw [hfront hbare, h], hbare⟩
  · rintro ⟨h, hbare⟩
    rw [← hfront hbare, h]

def IsFirst (p : String → Prop) (available : List String) (i : Nat) : Prop :=
  (∃ a, available[i]? = some a ∧ p a) ∧ ∀ j < i, ∀ a, available[j]? = some a → ¬p a

/-- Which of the available languages serves the request. -/
inductive Chosen (requested : String) (available : List String) (fallback : String) :
    Option Nat → Prop
  | same {i : Nat} : IsFirst (Alike · requested) available i →
      Chosen requested available fallback (some i)
  | bare {i : Nat} : (∀ a ∈ available, ¬Alike a requested) →
      IsFirst (fun a => SharePrimary a requested ∧ IsBare a) available i →
      Chosen requested available fallback (some i)
  | akin {i : Nat} : (∀ a ∈ available, ¬Alike a requested) →
      (∀ a ∈ available, ¬(SharePrimary a requested ∧ IsBare a)) →
      IsFirst (SharePrimary · requested) available i →
      Chosen requested available fallback (some i)
  | fallback {i : Nat} : (∀ a ∈ available, ¬SharePrimary a requested) →
      IsFirst (Alike · fallback) available i → Chosen requested available fallback (some i)
  | none : (∀ a ∈ available, ¬SharePrimary a requested) → (∀ a ∈ available, ¬Alike a fallback) →
      Chosen requested available fallback none

section

variable {p : String → Prop} {q : String → Bool} {available : List String}

theorem findIdx?_eq_some_iff_isFirst (h : ∀ a, q a = true ↔ p a) {i : Nat} :
    available.findIdx? q = some i ↔ IsFirst p available i := by
  rw [List.findIdx?_eq_some_iff_getElem]
  constructor
  · rintro ⟨hi, hq, hbefore⟩
    refine ⟨⟨_, List.getElem?_eq_getElem hi, (h _).1 hq⟩, fun j hj a ha hp => ?_⟩
    obtain ⟨hlt, rfl⟩ := List.getElem?_eq_some_iff.1 ha
    exact hbefore j hj ((h _).2 hp)
  · rintro ⟨⟨a, ha, hp⟩, hbefore⟩
    obtain ⟨hi, rfl⟩ := List.getElem?_eq_some_iff.1 ha
    refine ⟨hi, (h _).2 hp, fun j hj hq => ?_⟩
    exact hbefore j hj _ (List.getElem?_eq_getElem (Nat.lt_trans hj hi)) ((h _).1 hq)

theorem findIdx?_eq_none_iff_forall (h : ∀ a, q a = true ↔ p a) :
    available.findIdx? q = none ↔ ∀ a ∈ available, ¬p a := by
  rw [List.findIdx?_eq_none_iff]
  exact forall₂_congr fun a _ => by rw [← h, Bool.not_eq_true]

end

section

variable {available : List String} {i : Nat} {s : String}

theorem position_eq_some_iff :
    position (comparable s) available = some i ↔ IsFirst (Alike · s) available i :=
  findIdx?_eq_some_iff_isFirst fun _ => beq_iff_eq.trans alike_iff.symm

theorem position_eq_none_iff :
    position (comparable s) available = none ↔ ∀ a ∈ available, ¬Alike a s :=
  findIdx?_eq_none_iff_forall fun _ => beq_iff_eq.trans alike_iff.symm

theorem position_bare_eq_some_iff : position (primary (comparable s)) available = some i ↔
    IsFirst (fun a => SharePrimary a s ∧ IsBare a) available i :=
  findIdx?_eq_some_iff_isFirst fun _ => beq_iff_eq.trans comparable_eq_primary_comparable_iff

theorem position_bare_eq_none_iff : position (primary (comparable s)) available = none ↔
    ∀ a ∈ available, ¬(SharePrimary a s ∧ IsBare a) :=
  findIdx?_eq_none_iff_forall fun _ => beq_iff_eq.trans comparable_eq_primary_comparable_iff

def kin (available : List String) (s : String) : Option Nat :=
  available.findIdx? fun tag => primary (comparable tag) == primary (comparable s)

theorem kin_eq_some_iff : kin available s = some i ↔ IsFirst (SharePrimary · s) available i :=
  findIdx?_eq_some_iff_isFirst fun _ => beq_iff_eq.trans sharePrimary_iff.symm

theorem kin_eq_none_iff : kin available s = none ↔ ∀ a ∈ available, ¬SharePrimary a s :=
  findIdx?_eq_none_iff_forall fun _ => beq_iff_eq.trans sharePrimary_iff.symm

end

section

variable {requested : String} {available : List String} {fallback : String}

theorem choose_eq : choose requested available fallback = (position (comparable requested) available
    <|> position (primary (comparable requested)) available <|> kin available requested
    <|> position (comparable fallback) available) := rfl

theorem chosen_choose :
    Chosen requested available fallback (choose requested available fallback) := by
  rw [choose_eq]
  cases hsame : position (comparable requested) available with
  | some i => exact .same (position_eq_some_iff.1 hsame)
  | none =>
    have hsame := position_eq_none_iff.1 hsame
    cases hbare : position (primary (comparable requested)) available with
    | some i => exact .bare hsame (position_bare_eq_some_iff.1 hbare)
    | none =>
      have hbare := position_bare_eq_none_iff.1 hbare
      cases hkin : kin available requested with
      | some i => exact .akin hsame hbare (kin_eq_some_iff.1 hkin)
      | none =>
        have hkin := kin_eq_none_iff.1 hkin
        cases hfallback : position (comparable fallback) available with
        | some i => exact .fallback hkin (position_eq_some_iff.1 hfallback)
        | none => exact .none hkin (position_eq_none_iff.1 hfallback)

theorem choose_of_foreign (h : ∀ a ∈ available, ¬SharePrimary a requested) :
    choose requested available fallback = position (comparable fallback) available := by
  rw [choose_eq, position_eq_none_iff.2 fun a ha halike => h a ha halike.sharePrimary,
    position_bare_eq_none_iff.2 fun a ha hbare => h a ha hbare.1, kin_eq_none_iff.2 h]
  rfl

theorem choose_of_chosen {result : Option Nat} (h : Chosen requested available fallback result) :
    choose requested available fallback = result := by
  cases h with
  | same hfirst =>
    rw [choose_eq, position_eq_some_iff.2 hfirst]
    rfl
  | bare hsame hfirst =>
    rw [choose_eq, position_eq_none_iff.2 hsame, position_bare_eq_some_iff.2 hfirst]
    rfl
  | akin hsame hbare hfirst =>
    rw [choose_eq, position_eq_none_iff.2 hsame, position_bare_eq_none_iff.2 hbare,
      kin_eq_some_iff.2 hfirst]
    rfl
  | fallback hforeign hfirst => rw [choose_of_foreign hforeign, position_eq_some_iff.2 hfirst]
  | none hforeign hnone => rw [choose_of_foreign hforeign, position_eq_none_iff.2 hnone]

end

theorem alike_iff_canonical {s t a c : String} (ha : canonical? s = some a)
    (hc : canonical? t = some c) : Alike a c ↔ canonical? a = canonical? c := by
  rw [alike_iff, comparable_canonical ha, comparable_canonical hc, String.ofList_inj]
  refine ⟨canonical?_congr, fun h => ?_⟩
  obtain ⟨d, hd, -, hda⟩ := (isCanonicalFor ha).again
  obtain ⟨e, he, -, hec⟩ := (isCanonicalFor hc).again
  have hde : d = e := Option.some.inj ((hd.symm.trans h).trans he)
  rw [← respells_iff.1 hda, hde, respells_iff.1 hec]

theorem alike_refl (s : String) : Alike s s := alike_iff.2 rfl

/-- A canonical language serves itself unless one before it has the same canonical form. -/
theorem choose_canonical {available : List String}
    (havailable : ∀ a ∈ available, ∃ tag, canonical? tag = some a) {i : Nat} {c : String}
    (hc : available[i]? = some c) (fallback : String) : choose c available fallback = some i ↔
      ∀ j < i, ∀ a, available[j]? = some a → canonical? a ≠ canonical? c := by
  obtain ⟨t, ht⟩ := havailable c (List.mem_of_getElem? hc)
  have halike {j : Nat} {a : String} (ha : available[j]? = some a) :
      Alike a c ↔ canonical? a = canonical? c := by
    obtain ⟨s, hs⟩ := havailable a (List.mem_of_getElem? ha)
    exact alike_iff_canonical hs ht
  have hchoose : choose c available fallback = position (comparable c) available := by
    cases hposition : position (comparable c) available with
    | some k =>
      rw [choose_eq, hposition]
      rfl
    | none =>
      exact absurd (alike_refl c) (position_eq_none_iff.1 hposition c (List.mem_of_getElem? hc))
  rw [hchoose, position_eq_some_iff]
  constructor
  · exact fun h j hj a ha heq => h.2 j hj a ha ((halike ha).2 heq)
  · exact fun h => ⟨⟨c, hc, alike_refl c⟩, fun j hj a ha hlike => h j hj a ha ((halike ha).1 hlike)⟩

/-- The language that serves a request, whatever the spelling of the request and of the fallback.
Canonical languages serve themselves unless one of them reads as an earlier one. -/
theorem choose_eq_iff_chosen (requested : String) (available : List String) (fallback : String) :
    (∀ result, choose requested available fallback = result ↔
      Chosen requested available fallback result) ∧
    (∀ r f, Alike r requested → Alike f fallback →
      choose r available f = choose requested available fallback) ∧
    ((∀ a ∈ available, ∃ tag, canonical? tag = some a) → ∀ (i : Nat) (c : String),
      available[i]? = some c → (choose c available fallback = some i ↔
        ∀ j < i, ∀ a, available[j]? = some a → canonical? a ≠ canonical? c)) := by
  refine ⟨fun result => ⟨fun h => h ▸ chosen_choose, choose_of_chosen⟩, ?_, ?_⟩
  · intro r f hr hf
    rw [choose, choose, alike_iff.1 hr, alike_iff.1 hf]
  · exact fun havailable i c hc => choose_canonical havailable hc fallback

theorem exists_code_not_served : ¬∀ (available : List String) (fallback : String),
    (∀ a ∈ available, ∃ tag, canonical? tag = some a) → available.Nodup →
      ∀ c ∈ available, choose c available fallback = available.idxOf? c := by
  intro h
  have hcodes : ∀ a ∈ ["en-Abcd-biske", "en-abcd-biske"], ∃ tag, canonical? tag = some a := by
    refine List.forall_mem_cons.2 ⟨⟨"en-Abcd-biske", by decide +kernel⟩, ?_⟩
    exact List.forall_mem_singleton.2 ⟨"en-biske-abcd", by decide +kernel⟩
  have hserved := h _ "en" hcodes (by decide) "en-abcd-biske" (by decide)
  revert hserved
  decide +kernel

end Language

end Phrasebook
