import Mathlib.Data.List.Nodup
import Phrasebook.Identifier.FieldNames

namespace Phrasebook.Identifier

def IsWord (s : String) : Prop := ∀ c ∈ s.toList, isPart c = true

theorem isPart_of_isStart {c : Char} (h : isStart c = true) : isPart c = true := by
  simp only [isStart, isPart, Char.isAlphanum, Bool.or_eq_true] at h ⊢
  rcases h with h | h
  · exact .inl (.inl h)
  · exact .inr h

theorem isStart_of_isPart {c : Char} (h : isPart c = true) (hdigit : ¬c.isDigit = true) :
    isStart c = true := by
  simp only [isStart, isPart, Char.isAlphanum, Bool.or_eq_true] at h ⊢
  rcases h with (h | h) | h
  · exact .inl h
  · exact absurd h hdigit
  · exact .inr h

theorem isWord_of_isIdentifier {s : String} (h : isIdentifier s = true) : IsWord s := by
  unfold isIdentifier at h
  unfold IsWord
  cases hs : s.toList with
  | nil =>
    intro c hc
    cases hc
  | cons d r =>
    rw [hs] at h
    simp only [isIdentifierChars, Bool.and_eq_true] at h
    intro c hc
    rcases List.mem_cons.1 hc with rfl | hc
    · exact isPart_of_isStart h.1.1
    · exact List.all_eq_true.1 h.1.2 c hc

theorem isWord_append {s t : String} (hs : IsWord s) (ht : IsWord t) : IsWord (s ++ t) := by
  intro c hc
  rw [String.toList_append] at hc
  rcases List.mem_append.1 hc with hc | hc
  · exact hs c hc
  · exact ht c hc

theorem isWord_underscore : IsWord "_" := by
  intro c hc
  obtain rfl : c = '_' := List.mem_singleton.1 hc
  rfl

theorem isPart_sanitized (cs : List Char) :
    ∀ d ∈ cs.map fun c => if isPart c then c else '_', isPart d = true := by
  intro d hd
  obtain ⟨c, -, rfl⟩ := List.mem_map.1 hd
  split
  · next h => exact h
  · rfl

theorem isIdentifierChars_sanitizeChars (cs : List Char) :
    isIdentifierChars (sanitizeChars cs) = true := by
  have hparts := isPart_sanitized cs
  unfold sanitizeChars
  split
  · rfl
  · rfl
  · next c r hne hcs =>
    rw [hcs] at hparts
    have hr : r.all isPart = true :=
      List.all_eq_true.2 fun d hd => hparts d (List.mem_cons_of_mem c hd)
    have hc : isPart c = true := hparts c List.mem_cons_self
    split
    · simp [isIdentifierChars, hr, hc, isStart]
    · next hdigit =>
      simp only [isIdentifierChars, isStart_of_isPart hc hdigit, hr, Bool.and_self, Bool.true_and,
        Bool.not_eq_true', beq_eq_false_iff_ne]
      intro h
      cases h
      exact hne rfl rfl

theorem isIdentifier_sanitize (s : String) : isIdentifier (sanitize s) = true := by
  rw [isIdentifier, sanitize, String.toList_ofList]
  exact isIdentifierChars_sanitizeChars s.toList

theorem hash_not_mem {s : String} (h : IsWord s) : '#' ∉ s.toList := by
  intro hmem
  have := h '#' hmem
  revert this
  decide

theorem hash_mem_raw (s : String) : '#' ∈ ("r#" ++ s).toList := by
  simp [String.toList_append]

theorem suffixed_not_keyword :
    ∀ w ∈ suffixedKeywords, w ++ "_" ∉ suffixedKeywords ∧ w ++ "_" ∉ rawKeywords := by
  decide

theorem render_suffixed {w : String} (h : w ∈ suffixedKeywords) :
    render w = w ++ "_" ∧ render (w ++ "_") = w ++ "_" := by
  obtain ⟨h₁, h₂⟩ := suffixed_not_keyword w h
  rw [render, if_pos h, render, if_neg h₁, if_neg h₂]
  exact ⟨rfl, rfl⟩

def Shadows (a b : String) : Prop := a ∈ suffixedKeywords ∧ b = a ++ "_"

theorem eq_or_shadows_of_render_eq {a b : String} (ha : IsWord a) (hb : IsWord b)
    (h : render a = render b) : a = b ∨ Shadows a b ∨ Shadows b a := by
  have hash {x y : String} (hx : IsWord x) : x ≠ "r#" ++ y := by
    intro heq
    exact hash_not_mem hx (heq ▸ hash_mem_raw y)
  unfold render at h
  split at h
  · next hsa =>
    split at h
    · exact .inl ((String.append_left_inj _).1 h)
    · split at h
      · exact absurd h (hash (isWord_append ha isWord_underscore))
      · exact .inr (.inl ⟨hsa, h.symm⟩)
  · split at h
    · split at h
      · exact absurd h.symm (hash (isWord_append hb isWord_underscore))
      · split at h
        · exact .inl ((String.append_right_inj _).1 h)
        · exact absurd h.symm (hash hb)
    · split at h
      · next hsb => exact .inr (.inr ⟨hsb, h⟩)
      · split at h
        · exact absurd h (hash ha)
        · exact .inl h

theorem render_eq_of_shadows {a b : String} (h : Shadows a b) : render a = render b := by
  obtain ⟨ha, rfl⟩ := h
  rw [(render_suffixed ha).1, (render_suffixed ha).2]

theorem render_eq_render_iff {a b : String} (ha : IsWord a) (hb : IsWord b) :
    render a = render b ↔ a = b ∨ Shadows a b ∨ Shadows b a := by
  constructor
  · exact eq_or_shadows_of_render_eq ha hb
  · rintro (rfl | h | h)
    · rfl
    · exact render_eq_of_shadows h
    · exact (render_eq_of_shadows h).symm

/-- Distinct names stay distinct in writing unless one shadows another. -/
theorem nodup_map_render_iff {names : List String} (hnodup : names.Nodup)
    (hwords : ∀ s ∈ names, IsWord s) : (names.map render).Nodup ↔
      ∀ w ∈ suffixedKeywords, w ∈ names → w ++ "_" ∉ names := by
  rw [List.nodup_map_iff_inj_on hnodup]
  constructor
  · intro hinj w hw hmem hsuffixed
    have heq := hinj w hmem _ hsuffixed (render_eq_of_shadows ⟨hw, rfl⟩)
    have hlength := congrArg String.length heq
    rw [String.length_append] at hlength
    exact absurd hlength (Nat.ne_of_lt (Nat.lt_add_one _))
  · intro hshadows a ha b hb heq
    rcases eq_or_shadows_of_render_eq (hwords a ha) (hwords b hb) heq with h | ⟨hw, rfl⟩ | ⟨hw, rfl⟩
    · exact h
    · exact absurd hb (hshadows a hw ha)
    · exact absurd ha (hshadows b hw hb)

theorem mem_render {s : String} (h : IsWord s) :
    ∀ c ∈ (render s).toList, isPart c = true ∨ c = '#' := by
  intro c hc
  unfold render at hc
  split at hc
  · exact .inl (isWord_append h isWord_underscore c hc)
  · split at hc
    · rw [String.toList_append] at hc
      rcases List.mem_append.1 hc with hc | hc
      · obtain rfl | rfl : c = 'r' ∨ c = '#' := by simpa using hc
        · exact .inl rfl
        · exact .inr rfl
      · exact .inl (h c hc)
    · exact .inl (h c hc)

theorem isWord_base (key : String) : IsWord (base key) := by
  have h := isWord_of_isIdentifier (isIdentifier_sanitize key)
  unfold base
  split
  · exact isWord_append h isWord_underscore
  · exact h

theorem isWord_toString (n : Nat) : IsWord (toString n) := by
  intro c hc
  have hdigit : c.isDigit = true := by
    apply Nat.isDigit_of_mem_toDigits (b := 10) (n := n) (Nat.succ_pos 9) (Nat.le_refl 10)
    simpa using hc
  simp [isPart, Char.isAlphanum, hdigit]

theorem isWord_fresh (used : Std.TreeSet String) {name : String} (h : IsWord name) :
    IsWord (fresh used name) := by
  unfold fresh
  split
  · cases List.find? (numbered name · ∉ used) (List.range' 2 (used.size + 1)) with
    | none => exact h
    | some n => exact isWord_append (isWord_append h isWord_underscore) (isWord_toString n)
  · exact h

theorem isWord_assign (used : Std.TreeSet String) (keys : List String) :
    ∀ name ∈ assign used keys, IsWord name := by
  induction keys generalizing used with
  | nil =>
    intro name hname
    cases hname
  | cons key keys ih =>
    intro name hname
    rcases List.mem_cons.1 hname with rfl | hname
    · exact isWord_fresh used (isWord_base key)
    · exact ih _ name hname

theorem mem_fieldNames {keys : List String} {name : String} (h : name ∈ fieldNames keys) :
    ∀ c ∈ name.toList, isPart c = true ∨ c = '#' := by
  obtain ⟨word, hword, rfl⟩ := List.mem_map.1 h
  exact mem_render (isWord_assign ∅ keys word hword)

end Phrasebook.Identifier
