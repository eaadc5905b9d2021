import Mathlib.Data.List.Basic
import Phrasebook.Language.Tag

universe u

namespace Phrasebook

theorem mem_of_mem_intercalate {α : Type u} {sep : List α} {parts : List (List α)} {x : α}
    (h : x ∈ sep.intercalate parts) : x ∈ sep ∨ ∃ part ∈ parts, x ∈ part := by
  induction parts with
  | nil => cases h
  | cons part parts ih =>
    cases parts with
    | nil =>
      rw [List.intercalate_singleton] at h
      exact .inr ⟨part, List.mem_cons_self, h⟩
    | cons next parts =>
      rw [List.intercalate_cons_cons, List.mem_append, List.mem_append] at h
      rcases h with (h | h) | h
      · exact .inr ⟨part, List.mem_cons_self, h⟩
      · exact .inl h
      · obtain hsep | ⟨other, hother, hx⟩ := ih h
        · exact .inl hsep
        · exact .inr ⟨other, List.mem_cons_of_mem part hother, hx⟩

namespace Language

def isTagChar (c : Char) : Bool := c.isAlphanum || c = '-'

theorem isAlphanum_of_isAlpha (c : Char) (h : c.isAlpha = true) : c.isAlphanum = true := by
  simp [Char.isAlphanum, h]

theorem isAlphanum_of_isDigit (c : Char) (h : c.isDigit = true) : c.isAlphanum = true := by
  simp [Char.isAlphanum, h]

theorem isUpper_iff {c : Char} : c.isUpper = true ↔ 65 ≤ c.toNat ∧ c.toNat ≤ 90 :=
  decide_eq_true_iff.trans (and_congr UInt32.le_iff_toNat_le UInt32.le_iff_toNat_le)

theorem isLower_iff {c : Char} : c.isLower = true ↔ 97 ≤ c.toNat ∧ c.toNat ≤ 122 :=
  Bool.and_eq_true_iff.trans <| and_congr (decide_eq_true_iff.trans UInt32.le_iff_toNat_le)
    (decide_eq_true_iff.trans UInt32.le_iff_toNat_le)

theorem isAlpha_iff {c : Char} : c.isAlpha = true ↔
    (65 ≤ c.toNat ∧ c.toNat ≤ 90) ∨ 97 ≤ c.toNat ∧ c.toNat ≤ 122 :=
  Bool.or_eq_true_iff.trans (or_congr isUpper_iff isLower_iff)

theorem isAlphanum_iff {c : Char} : c.isAlphanum = true ↔
    ((65 ≤ c.toNat ∧ c.toNat ≤ 90) ∨ 97 ≤ c.toNat ∧ c.toNat ≤ 122) ∨
      48 ≤ c.toNat ∧ c.toNat ≤ 57 :=
  Bool.or_eq_true_iff.trans (or_congr isAlpha_iff Char.isDigit_iff_toNat)

theorem toNat_toLower (c : Char) : c.toLower.toNat =
    if 65 ≤ c.toNat ∧ c.toNat ≤ 90 then c.toNat + 32 else c.toNat := by
  unfold Char.toLower
  split
  · next hupper =>
    have hbounds : 65 ≤ c.toNat ∧ c.toNat ≤ 90 :=
      ⟨UInt32.le_iff_toNat_le.1 hupper.1, UInt32.le_iff_toNat_le.1 hupper.2⟩
    rw [if_pos hbounds]
    exact Nat.mod_eq_of_lt (Nat.lt_of_le_of_lt (Nat.add_le_add_right hbounds.2 32) (by decide))
  · next hupper =>
    exact (if_neg fun h =>
      hupper ⟨UInt32.le_iff_toNat_le.2 h.1, UInt32.le_iff_toNat_le.2 h.2⟩).symm

theorem toNat_toUpper (c : Char) : c.toUpper.toNat =
    if 97 ≤ c.toNat ∧ c.toNat ≤ 122 then c.toNat - 32 else c.toNat := by
  unfold Char.toUpper
  split
  · next hlower =>
    have hbounds : 97 ≤ c.toNat ∧ c.toNat ≤ 122 :=
      ⟨UInt32.le_iff_toNat_le.1 hlower.1, UInt32.le_iff_toNat_le.1 hlower.2⟩
    have hval : c.val.toNat = c.toNat := rfl
    rw [if_pos hbounds, Char.toNat, UInt32.toNat_add]
    change (c.val.toNat + 4294967264) % 4294967296 = _
    omega
  · next hlower =>
    exact (if_neg fun h =>
      hlower ⟨UInt32.le_iff_toNat_le.2 h.1, UInt32.le_iff_toNat_le.2 h.2⟩).symm

theorem isAlphanum_toLower (c : Char) : c.toLower.isAlphanum = c.isAlphanum := by
  rw [Bool.eq_iff_iff, isAlphanum_iff, isAlphanum_iff, toNat_toLower]
  split <;> omega

theorem isAlphanum_toUpper (c : Char) : c.toUpper.isAlphanum = c.isAlphanum := by
  rw [Bool.eq_iff_iff, isAlphanum_iff, isAlphanum_iff, toNat_toUpper]
  split <;> omega

def IsAlphanums (cs : List Char) : Prop := ∀ c ∈ cs, c.isAlphanum = true

theorem isAlphanums_of_all {p : Char → Bool} (hp : ∀ c, p c = true → c.isAlphanum = true)
    {cs : List Char} (h : cs.all p = true) : IsAlphanums cs := fun c hc =>
  hp c (List.all_eq_true.1 h c hc)

theorem isAlphanums_lower {cs : List Char} (h : IsAlphanums cs) : IsAlphanums (lower cs) := by
  intro c hc
  obtain ⟨d, hd, rfl⟩ := List.mem_map.1 hc
  exact (isAlphanum_toLower d).trans (h d hd)

theorem isAlphanums_upper {cs : List Char} (h : IsAlphanums cs) : IsAlphanums (upper cs) := by
  intro c hc
  obtain ⟨d, hd, rfl⟩ := List.mem_map.1 hc
  exact (isAlphanum_toUpper d).trans (h d hd)

theorem isAlphanums_title {cs : List Char} (h : IsAlphanums cs) : IsAlphanums (title cs) := by
  cases cs with
  | nil => exact h
  | cons d cs =>
    intro c hc
    rcases List.mem_cons.1 hc with rfl | hc
    · exact (isAlphanum_toUpper d).trans (h d List.mem_cons_self)
    · exact isAlphanums_lower (fun c hc => h c (List.mem_cons_of_mem d hc)) c hc

theorem isAlphanums_of_isLanguage {cs : List Char} (h : isLanguage cs = true) : IsAlphanums cs := by
  simp only [isLanguage, Bool.and_eq_true] at h
  exact isAlphanums_of_all isAlphanum_of_isAlpha h.2

theorem isAlphanums_of_isScript {cs : List Char} (h : isScript cs = true) : IsAlphanums cs := by
  simp only [isScript, Bool.and_eq_true] at h
  exact isAlphanums_of_all isAlphanum_of_isAlpha h.2

theorem isAlphanums_of_isRegion {cs : List Char} (h : isRegion cs = true) : IsAlphanums cs := by
  simp only [isRegion, Bool.or_eq_true, Bool.and_eq_true] at h
  rcases h with h | h
  · exact isAlphanums_of_all isAlphanum_of_isAlpha h.2
  · exact isAlphanums_of_all isAlphanum_of_isDigit h.2

theorem isAlphanums_of_isVariant {cs : List Char} (h : isVariant cs = true) : IsAlphanums cs := by
  simp only [isVariant, Bool.and_eq_true] at h
  exact isAlphanums_of_all (fun _ => id) h.2

theorem mem_insertVariant {v w : List Char} {ws : List (List Char)} (h : w ∈ insertVariant v ws) :
    w = v ∨ w ∈ ws := by
  induction ws with
  | nil => exact .inl (List.mem_singleton.1 h)
  | cons x ws ih =>
    simp only [insertVariant] at h
    split at h
    · exact List.mem_cons.1 h
    · split at h
      · exact .inr h
      · rcases List.mem_cons.1 h with rfl | h
        · exact .inr List.mem_cons_self
        · exact (ih h).imp_right (List.mem_cons_of_mem x)

theorem mem_of_mem_sortVariants {v : List Char} {vs : List (List Char)}
    (h : v ∈ sortVariants vs) : v ∈ vs := by
  induction vs with
  | nil => exact h
  | cons w vs ih =>
    rcases mem_insertVariant h with rfl | h
    · exact List.mem_cons_self
    · exact List.mem_cons_of_mem w (ih h)

theorem takePart_some {p : List Char → Bool} {parts : List (List Char)} {part : List Char}
    (h : (takePart p parts).1 = some part) : p part = true := by
  unfold takePart at h
  split at h
  · cases h
  · split at h
    · next hp =>
      cases h
      exact hp
    · cases h

theorem takePart_eq (p : List Char → Bool) (parts : List (List Char)) :
    (takePart p parts).1.toList ++ (takePart p parts).2 = parts := by
  cases parts with
  | nil => rfl
  | cons part parts =>
    rw [takePart]
    split <;> rfl

def variantsOf (parts : List (List Char)) : List (List Char) :=
  (takePart isRegion (takePart isScript parts.tail).2).2

/-- How a tag is made of its subtags. -/
structure Tag.Of (t : Tag) (parts : List (List Char)) (language : List Char)
    (script region : Option (List Char)) : Prop where
  subtags : parts = language :: (script.toList ++ region.toList ++ variantsOf parts)
  of_language : isLanguage language = true
  of_script : ∀ s ∈ script, isScript s = true
  of_region : ∀ r ∈ region, isRegion r = true
  of_variants : ∀ v ∈ variantsOf parts, isVariant v = true
  eq : t = ⟨lower language, script.map title, region.map upper,
    sortVariants ((variantsOf parts).map lower)⟩

theorem Tag.of_ofSubtags? {t : Tag} {parts : List (List Char)} (h : ofSubtags? parts = some t) :
    ∃ language script region, t.Of parts language script region := by
  unfold ofSubtags? at h
  split at h
  · cases h
  · next language parts =>
    dsimp only at h
    split at h
    · next hcheck =>
      obtain ⟨hlanguage, hvariants⟩ := Bool.and_eq_true_iff.1 hcheck
      cases h
      refine ⟨language, (takePart isScript parts).1,
        (takePart isRegion (takePart isScript parts).2).1, ?_⟩
      constructor
      case subtags => rw [variantsOf, List.tail_cons, List.append_assoc, takePart_eq, takePart_eq]
      case of_language => exact hlanguage
      case of_script => exact fun _ => takePart_some
      case of_region => exact fun _ => takePart_some
      case of_variants => exact List.all_eq_true.1 hvariants
      case eq => rfl
    · cases h

namespace Tag

theorem isAlphanums_parts {subtags : List (List Char)} {t : Tag}
    (h : ofSubtags? subtags = some t) : ∀ part ∈ t.parts, IsAlphanums part := by
  obtain ⟨language, script, region, hof⟩ := of_ofSubtags? h
  intro part hpart
  rw [hof.eq] at hpart
  simp only [Tag.parts, List.mem_cons, List.mem_append, Option.mem_toList,
    Option.map_eq_some_iff] at hpart
  rcases hpart with rfl | (⟨s, hs, rfl⟩ | ⟨r, hr, rfl⟩) | hvariant
  · exact isAlphanums_lower (isAlphanums_of_isLanguage hof.of_language)
  · exact isAlphanums_title (isAlphanums_of_isScript (hof.of_script s hs))
  · exact isAlphanums_upper (isAlphanums_of_isRegion (hof.of_region r hr))
  · obtain ⟨v, hv, rfl⟩ := List.mem_map.1 (mem_of_mem_sortVariants hvariant)
    exact isAlphanums_lower (isAlphanums_of_isVariant (hof.of_variants v hv))

theorem isTagChar_render {t : Tag} (h : ∀ part ∈ t.parts, IsAlphanums part) :
    ∀ c ∈ t.render, isTagChar c = true := by
  intro c hc
  obtain hsep | ⟨part, hpart, hc⟩ := mem_of_mem_intercalate hc
  · obtain rfl := List.mem_singleton.1 hsep
    rfl
  · rw [isTagChar, h part hpart c hc, Bool.true_or]

end Tag

theorem isTagChar_canonical? {s c : String} (h : canonical? s = some c) :
    ∀ x ∈ c.toList, isTagChar x = true := by
  obtain ⟨cs, hcs, rfl⟩ := Option.map_eq_some_iff.1 h
  obtain ⟨t, ht, rfl⟩ := Option.map_eq_some_iff.1 hcs
  rw [String.toList_ofList]
  exact Tag.isTagChar_render (Tag.isAlphanums_parts ht)

end Language

end Phrasebook
