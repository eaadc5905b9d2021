import Phrasebook.Placement
import Phrasebook.Proofs.FieldNames
import Phrasebook.Proofs.Respelling

namespace Phrasebook

namespace Identifier

theorem isDigit_of_isStart {c : Char} (h : isStart c = true) : c.isDigit = false := by
  rw [isStart, Bool.or_eq_true, decide_eq_true_iff] at h
  rcases h with h | rfl
  · exact Language.isDigit_of_isAlpha h
  · rfl

theorem sanitizeChars_eq_self {cs : List Char} (h : isIdentifierChars cs = true) :
    sanitizeChars cs = cs := by
  cases cs with
  | nil => cases h
  | cons c r =>
    simp only [isIdentifierChars, Bool.and_eq_true, Bool.not_eq_true', beq_eq_false_iff_ne] at h
    obtain ⟨⟨hstart, hparts⟩, hlone⟩ := h
    have hkept : (c :: r).map (fun c => if isPart c then c else '_') = c :: r := by
      refine List.map_congr_left ?_ |>.trans (List.map_id _)
      intro d hd
      refine if_pos ?_
      rcases List.mem_cons.1 hd with rfl | hd
      · exact isPart_of_isStart hstart
      · exact List.all_eq_true.1 hparts d hd
    unfold sanitizeChars
    rw [hkept]
    split
    · next hnil => cases hnil
    · next hunderscore => exact absurd hunderscore hlone
    · next hcons =>
      cases hcons
      rw [isDigit_of_isStart hstart]
      rfl

theorem sanitize_eq_self_iff {s : String} : sanitize s = s ↔ isIdentifier s = true := by
  constructor
  · intro h
    exact h ▸ isIdentifier_sanitize s
  · intro h
    rw [sanitize, sanitizeChars_eq_self h, String.ofList_toList]

theorem base_eq_self_iff {key : String} :
    base key = key ↔ isIdentifier key = true ∧ key ∉ suffixedKeywords := by
  constructor
  · intro h
    have hidentifier : isIdentifier key = true := h ▸ isIdentifier_base key
    refine ⟨hidentifier, fun hsuffixed => ?_⟩
    rw [base, sanitize_eq_self_iff.2 hidentifier, if_pos hsuffixed] at h
    exact (suffixed_not_keyword key hsuffixed).1 (h.symm ▸ hsuffixed)
  · rintro ⟨hidentifier, hsuffixed⟩
    rw [base, sanitize_eq_self_iff.2 hidentifier, if_neg hsuffixed]

end Identifier

namespace Placement

def directoryTexts (cs : List Path.Component) : List String :=
  (cs.dropLast.filterMap Path.Component.name?).map Text.Utf8.toStringLossy

theorem directoryNames_eq (cs : List Path.Component) :
    directoryNames cs = (directoryTexts cs).map Identifier.sanitize := by
  rw [directoryTexts, List.map_map]
  rfl

end Placement

namespace Identifier

structure IsSegmentOf (text segment : String) : Prop where
  isIdentifier : isIdentifier segment = true
  eq_iff : segment = text ↔ Identifier.isIdentifier text = true

theorem isSegmentOf_sanitize (s : String) : IsSegmentOf s (sanitize s) :=
  ⟨isIdentifier_sanitize s, sanitize_eq_self_iff⟩

/-- Any text is made an identifier, and identifiers are kept: by sanitizing, for directories, and,
but for keywords without a raw form, as bases of fields. -/
theorem projects_onto_identifiers :
    (∀ s, IsSegmentOf s (sanitize s) ∧ sanitize (sanitize s) = sanitize s) ∧
      (∀ cs, List.Forall₂ IsSegmentOf (Placement.directoryTexts cs) (Placement.directoryNames cs)) ∧
        ∀ key, isIdentifier (base key) = true ∧
          (base key = key ↔ isIdentifier key = true ∧ key ∉ suffixedKeywords) := by
  refine ⟨fun s => ⟨isSegmentOf_sanitize s, ?_⟩, fun cs => ?_, fun key => ?_⟩
  · exact sanitize_eq_self_iff.2 (isIdentifier_sanitize s)
  · rw [Placement.directoryNames_eq, List.forall₂_map_right_iff]
    exact List.forall₂_same.2 fun s _ => isSegmentOf_sanitize s
  · exact ⟨isIdentifier_base key, base_eq_self_iff⟩

/-- The base of `self` is `self_`. -/
theorem exists_identifier_with_other_base :
    ¬∀ key, isIdentifier (base key) = true ∧ (isIdentifier key = true → base key = key) := by
  intro h
  have hself : base "self" = "self" := (h "self").2 (by decide)
  revert hself
  decide

end Identifier

end Phrasebook
