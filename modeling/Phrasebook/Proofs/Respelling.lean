import Mathlib.Data.Char
import Mathlib.Data.List.Infix
import Mathlib.Data.List.Lex
import Phrasebook.Proofs.Tag

namespace Phrasebook.Language

def foldChar (c : Char) : Char := (if c = '_' then '-' else c).toLower

def fold (cs : List Char) : List Char := cs.map foldChar

theorem isDigit_of_isAlpha {c : Char} (h : c.isAlpha = true) : c.isDigit = false := by
  rw [isAlpha_iff] at h
  rw [Bool.eq_false_iff, Ne, Char.isDigit_iff_toNat]
  rintro ⟨-, hle⟩
  change c.toNat ≤ 57 at hle
  omega

theorem isSeparator_of_isAlphanum {c : Char} (h : c.isAlphanum = true) :
    isSeparator c = false := by
  rw [isSeparator, Bool.or_eq_false_iff, decide_eq_false_iff_not, decide_eq_false_iff_not]
  constructor <;> rintro rfl <;> exact absurd h (by decide)

theorem isAlpha_toLower (c : Char) : c.toLower.isAlpha = c.isAlpha := by
  rw [Bool.eq_iff_iff, isAlpha_iff, isAlpha_iff, toNat_toLower]
  split <;> omega

theorem toLower_of_not_isAlpha {c : Char} (h : ¬c.isAlpha = true) : c.toLower = c := by
  rw [isAlpha_iff] at h
  rw [← Char.toNat_inj, toNat_toLower, if_neg fun hupper => h (.inl hupper)]

theorem apply_toLower {α : Type} {f : Char → α} {a : α} (h : ∀ c, c.isAlpha = true → f c = a)
    (c : Char) : f c.toLower = f c := by
  by_cases hletter : c.isAlpha = true
  · rw [h c hletter, h c.toLower (by rw [isAlpha_toLower, hletter])]
  · rw [toLower_of_not_isAlpha hletter]

theorem isDigit_toLower (c : Char) : c.toLower.isDigit = c.isDigit :=
  apply_toLower (fun _ => isDigit_of_isAlpha) c

theorem isSeparator_toLower (c : Char) : isSeparator c.toLower = isSeparator c :=
  apply_toLower (fun _ h => isSeparator_of_isAlphanum (isAlphanum_of_isAlpha _ h)) c

theorem foldChar_of_isSeparator {c : Char} (h : isSeparator c = true) : foldChar c = '-' := by
  simp only [isSeparator, Bool.or_eq_true, decide_eq_true_eq] at h
  rcases h with rfl | rfl <;> rfl

theorem foldChar_of_not_isSeparator {c : Char} (h : isSeparator c = false) :
    foldChar c = c.toLower := by
  simp only [isSeparator, Bool.or_eq_false_iff, decide_eq_false_iff_not] at h
  rw [foldChar, if_neg h.2]

theorem isSeparator_foldChar (c : Char) : isSeparator (foldChar c) = isSeparator c := by
  cases h : isSeparator c with
  | true =>
    rw [foldChar_of_isSeparator h]
    rfl
  | false =>
    rw [foldChar_of_not_isSeparator h, isSeparator_toLower, h]

theorem subtags_cons (c : Char) (cs : List Char) : subtags (c :: cs) =
    if isSeparator c then [] :: subtags cs else (subtags cs).modifyHead (List.cons c) :=
  List.splitOnP_cons_eq_if_modifyHead c cs

theorem exists_subtags_eq_cons (cs : List Char) : ∃ part parts, subtags cs = part :: parts :=
  List.exists_cons_of_ne_nil (List.splitOnP_ne_nil isSeparator cs)

theorem subtags_fold (cs : List Char) : subtags (fold cs) = (subtags cs).map lower := by
  induction cs with
  | nil => rfl
  | cons c cs ih =>
    obtain ⟨part, parts, hparts⟩ := exists_subtags_eq_cons cs
    rw [fold, List.map_cons, ← fold, subtags_cons, subtags_cons, isSeparator_foldChar, ih, hparts]
    cases h : isSeparator c with
    | true => rfl
    | false =>
      rw [foldChar_of_not_isSeparator h]
      rfl

theorem fold_eq_intercalate (cs : List Char) :
    fold cs = ['-'].intercalate ((subtags cs).map lower) := by
  induction cs with
  | nil => rfl
  | cons c cs ih =>
    obtain ⟨part, parts, hparts⟩ := exists_subtags_eq_cons cs
    rw [fold, List.map_cons, ← fold, subtags_cons, ih, hparts]
    cases h : isSeparator c with
    | true =>
      rw [foldChar_of_isSeparator h]
      rfl
    | false =>
      rw [foldChar_of_not_isSeparator h]
      cases parts <;> rfl

@[simp] theorem toLower_toLower (c : Char) : c.toLower.toLower = c.toLower := by
  rw [← Char.toNat_inj, toNat_toLower, toNat_toLower]
  grind

@[simp] theorem toUpper_toLower (c : Char) : c.toLower.toUpper = c.toUpper := by
  rw [← Char.toNat_inj, toNat_toUpper, toNat_toUpper, toNat_toLower]
  grind

@[simp] theorem toLower_toUpper (c : Char) : c.toUpper.toLower = c.toLower := by
  rw [← Char.toNat_inj, toNat_toLower, toNat_toLower, toNat_toUpper]
  grind

@[simp] theorem lower_lower (cs : List Char) : lower (lower cs) = lower cs := by
  simp [lower]

@[simp] theorem upper_lower (cs : List Char) : upper (lower cs) = upper cs := by
  simp [lower, upper]

@[simp] theorem lower_upper (cs : List Char) : lower (upper cs) = lower cs := by
  simp [lower, upper]

@[simp] theorem title_lower (cs : List Char) : title (lower cs) = title cs := by
  cases cs <;> simp [lower, title]

@[simp] theorem lower_title (cs : List Char) : lower (title cs) = lower cs := by
  cases cs <;> simp [lower, title]

@[simp] theorem length_lower (cs : List Char) : (lower cs).length = cs.length := List.length_map _

theorem all_lower {p : Char → Bool} (hp : ∀ c, p c.toLower = p c) (cs : List Char) :
    (lower cs).all p = cs.all p := by
  rw [lower, List.all_map]
  congr 1
  funext c
  exact hp c

@[simp] theorem isLanguage_lower (cs : List Char) : isLanguage (lower cs) = isLanguage cs := by
  rw [isLanguage, isLanguage, length_lower, all_lower isAlpha_toLower]

@[simp] theorem isScript_lower (cs : List Char) : isScript (lower cs) = isScript cs := by
  rw [isScript, isScript, length_lower, all_lower isAlpha_toLower]

@[simp] theorem isRegion_lower (cs : List Char) : isRegion (lower cs) = isRegion cs := by
  rw [isRegion, isRegion, length_lower, all_lower isAlpha_toLower,
    all_lower isDigit_toLower]

@[simp] theorem isVariant_lower (cs : List Char) : isVariant (lower cs) = isVariant cs := by
  rw [isVariant, isVariant, length_lower, all_lower isAlphanum_toLower]

theorem isScript_title (cs : List Char) : isScript (title cs) = isScript cs := by
  rw [← isScript_lower, lower_title, isScript_lower]

theorem isRegion_upper (cs : List Char) : isRegion (upper cs) = isRegion cs := by
  rw [← isRegion_lower, lower_upper, isRegion_lower]

theorem isScript_of_isRegion {cs : List Char} (h : isRegion cs = true) : isScript cs = false := by
  simp only [isRegion, isScript, Bool.or_eq_true, Bool.and_eq_true, beq_iff_eq,
    Bool.and_eq_false_iff, beq_eq_false_iff_ne] at h ⊢
  omega

theorem isRegion_of_isVariant {cs : List Char} (h : isVariant cs = true) : isRegion cs = false := by
  simp only [isRegion, isVariant, Bool.and_eq_true, decide_eq_true_eq, Bool.or_eq_false_iff,
    Bool.and_eq_false_iff, beq_eq_false_iff_ne] at h ⊢
  omega

theorem takePart_map_lower {p : List Char → Bool} (hp : ∀ cs, p (lower cs) = p cs)
    (parts : List (List Char)) : takePart p (parts.map lower) =
      ((takePart p parts).1.map lower, (takePart p parts).2.map lower) := by
  cases parts with
  | nil => rfl
  | cons part parts =>
    rw [List.map_cons, takePart, takePart, hp]
    split <;> rfl

theorem ofSubtags?_map_lower (parts : List (List Char)) :
    Tag.ofSubtags? (parts.map lower) = Tag.ofSubtags? parts := by
  cases parts with
  | nil => rfl
  | cons language parts =>
    simp [Tag.ofSubtags?, takePart_map_lower isScript_lower, takePart_map_lower isRegion_lower,
      Function.comp_def]

/-- The canonical form does not depend on case and on the kind of separator. -/
theorem canonicalChars?_fold (cs : List Char) : canonicalChars? (fold cs) = canonicalChars? cs := by
  rw [canonicalChars?, canonicalChars?, Tag.ofChars?, Tag.ofChars?, subtags_fold,
    ofSubtags?_map_lower]

theorem canonical?_congr {s t : String} (h : fold s.toList = fold t.toList) :
    canonical? s = canonical? t := by
  rw [canonical?, canonical?, ← canonicalChars?_fold, h, canonicalChars?_fold]

theorem takePart_suffix (p : List Char → Bool) (parts : List (List Char)) :
    (takePart p parts).2 <:+ parts := ⟨_, takePart_eq p parts⟩

theorem takePart_of_pos {p : List Char → Bool} {part : List Char} (h : p part = true)
    (parts : List (List Char)) : takePart p (part :: parts) = (some part, parts) := by
  rw [takePart, if_pos h]

theorem takePart_of_head {p : List Char → Bool} {parts : List (List Char)}
    (h : ∀ part ∈ parts.head?, p part = false) : takePart p parts = (none, parts) := by
  cases parts with
  | nil => rfl
  | cons part parts => rw [takePart, h part rfl, if_neg Bool.false_ne_true]

theorem variantsOf_map_lower (parts : List (List Char)) :
    variantsOf (parts.map lower) = (variantsOf parts).map lower := by
  rw [variantsOf, ← List.map_tail, takePart_map_lower isScript_lower,
    takePart_map_lower isRegion_lower, variantsOf]

/-- A variant that looks like a script is taken for one where no script and no region stand before
it, and no other variant is lost. -/
theorem variantsOf_suffix {language : List Char} {script region : Option (List Char)}
    {vs : List (List Char)} (hscript : ∀ s ∈ script, isScript s = true)
    (hregion : ∀ r ∈ region, isRegion r = true) (hvs : ∀ v ∈ vs, isRegion v = false) :
    variantsOf (language :: (script.toList ++ region.toList ++ vs)) <:+ vs := by
  have hrest {rest : List (List Char)} (h : rest <:+ vs) : (takePart isRegion rest).2 = rest := by
    rw [takePart_of_head fun v hv => hvs v (h.subset (List.mem_of_mem_head? hv))]
  rw [variantsOf, List.tail_cons]
  cases script with
  | some s =>
    change (takePart isRegion (takePart isScript (s :: (region.toList ++ vs))).2).2 <:+ vs
    rw [takePart_of_pos (hscript s rfl)]
    cases region with
    | some r =>
      change (takePart isRegion (r :: vs)).2 <:+ vs
      rw [takePart_of_pos (hregion r rfl)]
    | none =>
      change (takePart isRegion vs).2 <:+ vs
      rw [hrest List.suffix_rfl]
  | none =>
    cases region with
    | some r =>
      have hnone : takePart isScript (r :: vs) = (none, r :: vs) :=
        takePart_of_head fun _ h => Option.some.inj h ▸ isScript_of_isRegion (hregion r rfl)
      change (takePart isRegion (takePart isScript (r :: vs)).2).2 <:+ vs
      rw [hnone, takePart_of_pos (hregion r rfl)]
    | none =>
      change (takePart isRegion (takePart isScript vs).2).2 <:+ vs
      rw [hrest (takePart_suffix isScript vs)]
      exact takePart_suffix isScript vs

theorem insertVariant_of_forall_lt {v : List Char} {ws : List (List Char)} (h : ∀ w ∈ ws, v < w) :
    insertVariant v ws = v :: ws := by
  cases ws with
  | nil => rfl
  | cons w ws => rw [insertVariant, if_pos (h w List.mem_cons_self)]

theorem sortVariants_of_pairwise {vs : List (List Char)} (h : vs.Pairwise (· < ·)) :
    sortVariants vs = vs := by
  induction vs with
  | nil => rfl
  | cons v vs ih =>
    obtain ⟨hv, hvs⟩ := List.pairwise_cons.1 h
    change insertVariant v (sortVariants vs) = v :: vs
    rw [ih hvs, insertVariant_of_forall_lt hv]

theorem pairwise_insertVariant (v : List Char) {ws : List (List Char)} (h : ws.Pairwise (· < ·)) :
    (insertVariant v ws).Pairwise (· < ·) := by
  induction ws with
  | nil => exact List.pairwise_singleton _ _
  | cons w ws ih =>
    obtain ⟨hw, hws⟩ := List.pairwise_cons.1 h
    simp only [insertVariant]
    split
    · next hlt =>
      refine List.pairwise_cons.2 ⟨?_, h⟩
      intro x hx
      rcases List.mem_cons.1 hx with rfl | hx
      · exact hlt
      · exact lt_trans hlt (hw x hx)
    · next hlt =>
      split
      · exact h
      · next hne =>
        refine List.pairwise_cons.2 ⟨?_, ih hws⟩
        intro x hx
        rcases mem_insertVariant hx with rfl | hx
        · exact lt_of_le_of_ne (not_lt.1 hlt) (Ne.symm hne)
        · exact hw x hx

theorem pairwise_sortVariants (vs : List (List Char)) : (sortVariants vs).Pairwise (· < ·) := by
  induction vs with
  | nil => exact .nil
  | cons v vs ih => exact pairwise_insertVariant v ih

theorem map_lower_sortVariants (vs : List (List Char)) :
    (sortVariants (vs.map lower)).map lower = sortVariants (vs.map lower) := by
  refine (List.map_congr_left ?_).trans (List.map_id _)
  intro v hv
  obtain ⟨w, -, rfl⟩ := List.mem_map.1 (mem_of_mem_sortVariants hv)
  exact lower_lower w

namespace Tag.Of

variable {t : Tag} {parts : List (List Char)} {language : List Char}
  {script region : Option (List Char)} (h : t.Of parts language script region)

include h

theorem isAlphanums : ∀ part ∈ parts, IsAlphanums part := by
  rw [h.subtags]
  simp only [List.mem_cons, List.mem_append, Option.mem_toList]
  rintro part (rfl | (hscript | hregion) | hvariant)
  · exact isAlphanums_of_isLanguage h.of_language
  · exact isAlphanums_of_isScript (h.of_script part hscript)
  · exact isAlphanums_of_isRegion (h.of_region part hregion)
  · exact isAlphanums_of_isVariant (h.of_variants part hvariant)

theorem pairwise_variants : t.variants.Pairwise (· < ·) := by
  rw [h.eq]
  exact pairwise_sortVariants _

theorem map_lower_variants : t.variants.map lower = t.variants := by
  rw [h.eq]
  exact map_lower_sortVariants _

theorem map_lower_parts (horder : ((variantsOf parts).map lower).Pairwise (· < ·)) :
    t.parts.map lower = parts.map lower := by
  have hvariants : (sortVariants ((variantsOf parts).map lower)).map lower =
      (variantsOf parts).map lower := by
    rw [map_lower_sortVariants, sortVariants_of_pairwise horder]
  have hsplit : t.parts.map lower =
      (language :: (script.toList ++ region.toList ++ variantsOf parts)).map lower := by
    rw [h.eq]
    cases script <;> cases region <;> simp [Tag.parts, hvariants]
  rw [hsplit, ← h.subtags]

theorem variantsOf_parts : variantsOf t.parts <:+ t.variants := by
  rw [h.eq]
  apply variantsOf_suffix
  · simpa [isScript_title] using h.of_script
  · simpa [isRegion_upper] using h.of_region
  · intro v hv
    obtain ⟨w, hw, rfl⟩ := List.mem_map.1 (mem_of_mem_sortVariants hv)
    rw [isRegion_lower]
    exact isRegion_of_isVariant (h.of_variants w hw)

end Tag.Of

theorem subtags_intercalate {parts : List (List Char)} (hne : parts ≠ [])
    (h : ∀ part ∈ parts, IsAlphanums part) : subtags (['-'].intercalate parts) = parts := by
  induction parts with
  | nil => exact absurd rfl hne
  | cons part parts ih =>
    have hpart : subtags part = [part] := List.splitOnP_eq_singleton fun c hc =>
      isSeparator_of_isAlphanum (h part List.mem_cons_self c hc)
    cases parts with
    | nil => rw [List.intercalate_singleton, hpart]
    | cons next parts =>
      have hrest := ih (List.cons_ne_nil next parts) fun p hp => h p (List.mem_cons_of_mem part hp)
      rw [List.intercalate_cons_cons, List.append_assoc, List.singleton_append, subtags,
        List.splitOnP_append_cons part _ (by decide), ← subtags, ← subtags, hpart, hrest]
      rfl

theorem exists_of_canonical? {s c : String} (h : canonical? s = some c) :
    ∃ (t : Tag) (language : List Char) (script region : Option (List Char)),
      t.Of (subtags s.toList) language script region ∧ c.toList = t.render ∧
        subtags c.toList = t.parts := by
  obtain ⟨_, hchars, rfl⟩ := Option.map_eq_some_iff.1 h
  obtain ⟨t, ht, rfl⟩ := Option.map_eq_some_iff.1 hchars
  obtain ⟨language, script, region, hof⟩ := Tag.of_ofSubtags? ht
  refine ⟨t, language, script, region, hof, String.toList_ofList, ?_⟩
  rw [String.toList_ofList, Tag.render]
  exact subtags_intercalate (List.cons_ne_nil _ _) (Tag.isAlphanums_parts ht)

def InOrder (tag : String) : Prop :=
  ((variantsOf (subtags tag.toList)).map lower).Pairwise (· < ·)

instance (tag : String) : Decidable (InOrder tag) := inferInstanceAs (Decidable (List.Pairwise _ _))

theorem fold_eq_of_inOrder {s c : String} (h : canonical? s = some c) (horder : InOrder s) :
    fold c.toList = fold s.toList := by
  obtain ⟨t, language, script, region, hof, -, hsubtags⟩ := exists_of_canonical? h
  rw [fold_eq_intercalate, fold_eq_intercalate, hsubtags, hof.map_lower_parts horder]

theorem inOrder_of_fold_eq {r c s : String} (h : canonical? r = some c)
    (heq : fold c.toList = fold s.toList) : InOrder s := by
  obtain ⟨t, language, script, region, hof, -, hsubtags⟩ := exists_of_canonical? h
  have hparts : t.parts.map lower = (subtags s.toList).map lower := by
    rw [← hsubtags, ← subtags_fold, heq, subtags_fold]
  rw [InOrder, ← variantsOf_map_lower, ← hparts, variantsOf_map_lower]
  exact (hof.map_lower_variants ▸ hof.pairwise_variants).sublist
    (hof.variantsOf_parts.map lower).sublist

end Phrasebook.Language
