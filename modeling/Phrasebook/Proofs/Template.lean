import Phrasebook.Error
import Phrasebook.Proofs.Lines
import Phrasebook.Proofs.Success

namespace Phrasebook

namespace Template

def IsPlace (n : Nat) (w : List Char) : Prop :=
  ∃ digits, digits ≠ [] ∧ (∀ d ∈ digits, d.isDigit = true) ∧ Nat.ofDigitChars 10 digits 0 = n ∧
    w = '\x7b' :: (digits ++ ['\x7d'])

def HasPlace (n : Nat) (cs : List Char) : Prop := ∃ w, IsPlace n w ∧ w <:+: cs

theorem isPlace_slotText (n : Nat) : IsPlace n (slotText n).toList := by
  refine ⟨Nat.toDigits 10 n, Nat.toDigits_ne_nil, fun d hd => ?_, Nat.ofDigitChars_ten_toDigits, ?_⟩
  · exact Nat.isDigit_of_mem_toDigits (by decide) (by decide) hd
  · simp [slotText, String.toList_append]

namespace IsPlace

variable {n : Nat} {w : List Char} (hw : IsPlace n w)

include hw

theorem ne_nil : w ≠ [] := by
  obtain ⟨_, _, _, _, rfl⟩ := hw
  exact List.cons_ne_nil _ _

theorem unique {m : Nat} {v r s : List Char} (hv : IsPlace m v) (h : w ++ r = v ++ s) :
    n = m ∧ w = v ∧ r = s := by
  obtain ⟨ds, -, hds, rfl, rfl⟩ := hw
  obtain ⟨es, -, hes, rfl, rfl⟩ := hv
  have hclosing {ds : List Char} (hds : ∀ d ∈ ds, d.isDigit = true) : '\x7d' ∉ ds := fun hmem =>
    absurd (hds _ hmem) (by decide)
  simp only [List.cons_append, List.append_assoc, List.nil_append, List.cons.injEq,
    true_and] at h
  have hdigits := congrArg (List.takeWhile (· ≠ '\x7d')) h
  rw [SourceUnit.takeWhile_append_mark (hclosing hds),
    SourceUnit.takeWhile_append_mark (hclosing hes)] at hdigits
  subst hdigits
  exact ⟨rfl, rfl, (List.cons.inj (List.append_cancel_left h)).2⟩

theorem not_prefix {c : Char} (hc : c ≠ '\x7b') (cs : List Char) : ¬w <+: c :: cs := by
  obtain ⟨_, _, _, _, rfl⟩ := hw
  intro h
  exact hc (List.cons_prefix_cons.1 h).1.symm

theorem infix_append_iff {front : List Char} (hfront : '\x7b' ∉ front) (cs : List Char) :
    w <:+: front ++ cs ↔ w <:+: cs := by
  induction front with
  | nil => rfl
  | cons c front ih =>
    rw [List.mem_cons, not_or] at hfront
    rw [List.cons_append, List.infix_cons_iff, ih hfront.2]
    exact or_iff_right (hw.not_prefix (Ne.symm hfront.1) _)

end IsPlace

inductive Shows (args : List String) (n : Nat) (w : List Char) : List Char → Prop
  | filled {arg : String} : args[n]? = some arg → Shows args n w arg.toList
  | left : args[n]? = none → Shows args n w w

/-- What one pass makes of a text. -/
inductive Fills (args : List String) : List Char → List Char → Prop
  | nil : Fills args [] []
  | place {n : Nat} {w shown rest out : List Char} :
      IsPlace n w → Shows args n w shown → Fills args rest out →
        Fills args (w ++ rest) (shown ++ out)
  | copied {c : Char} {rest out : List Char} :
      (∀ n w, IsPlace n w → ¬w <+: c :: rest) → Fills args rest out →
        Fills args (c :: rest) (c :: out)

variable {args : List String}

theorem fills_nil_iff {out : List Char} : Fills args [] out ↔ out = [] := by
  constructor
  · intro h
    generalize hcs : [] = cs at h
    cases h with
    | nil => rfl
    | place hw => exact absurd (List.append_eq_nil_iff.1 hcs.symm).1 hw.ne_nil
    | copied => cases hcs
  · rintro rfl
    exact .nil

theorem fills_place_iff {n : Nat} {w rest out : List Char} (hw : IsPlace n w) :
    Fills args (w ++ rest) out ↔
      ∃ shown out', Shows args n w shown ∧ Fills args rest out' ∧ out = shown ++ out' := by
  constructor
  · intro h
    generalize hcs : w ++ rest = cs at h
    cases h with
    | nil => exact absurd (List.append_eq_nil_iff.1 hcs).1 hw.ne_nil
    | place hv hshown hrest =>
      obtain ⟨rfl, rfl, rfl⟩ := hw.unique hv hcs
      exact ⟨_, _, hshown, hrest, rfl⟩
    | copied hc _ => exact absurd ⟨rest, hcs⟩ (hc n w hw)
  · rintro ⟨shown, out', hshown, hrest, rfl⟩
    exact .place hw hshown hrest

theorem fills_cons_iff {c : Char} {rest out : List Char}
    (hc : ∀ n w, IsPlace n w → ¬w <+: c :: rest) :
    Fills args (c :: rest) out ↔ ∃ out', Fills args rest out' ∧ out = c :: out' := by
  constructor
  · intro h
    generalize hcs : c :: rest = cs at h
    cases h with
    | nil => cases hcs
    | @place _ _ _ rest' _ hw _ _ => exact absurd ⟨rest', hcs.symm⟩ (hc _ _ hw)
    | copied _ hrest =>
      cases hcs
      exact ⟨_, hrest, rfl⟩
  · rintro ⟨out', hrest, rfl⟩
    exact .copied hc hrest

theorem fills_append_iff {front : List Char} (hfront : '\x7b' ∉ front) {rest out : List Char} :
    Fills args (front ++ rest) out ↔ ∃ out', Fills args rest out' ∧ out = front ++ out' := by
  induction front generalizing out with
  | nil => simp
  | cons c front ih =>
    rw [List.mem_cons, not_or] at hfront
    rw [List.cons_append,
      fills_cons_iff fun n w hw => hw.not_prefix (Ne.symm hfront.1) (front ++ rest)]
    simp only [ih hfront.2]
    constructor
    · rintro ⟨_, ⟨out', hrest, rfl⟩, rfl⟩
      exact ⟨out', hrest, rfl⟩
    · rintro ⟨out', hrest, rfl⟩
      exact ⟨front ++ out', ⟨out', hrest, rfl⟩, rfl⟩

def IsPlainPiece : Piece → Prop
  | .text s => '\x7b' ∉ s.toList
  | .slot _ => True

instance : DecidablePred IsPlainPiece
  | .text s => inferInstanceAs (Decidable ('\x7b' ∉ s.toList))
  | .slot _ => inferInstanceAs (Decidable True)

def IsPlain (t : Template) : Prop := ∀ p ∈ t, IsPlainPiece p

instance (t : Template) : Decidable t.IsPlain := inferInstanceAs (Decidable (∀ p ∈ t, _))

theorem toList_text_cons (p : Piece) (t : Template) :
    (text (p :: t)).toList = (pieceText p).toList ++ (text t).toList := by
  simp [text]

theorem shows_slot_iff {n : Nat} {shown : List Char} :
    Shows args n (slotText n).toList shown ↔ shown = (fillPiece args (.slot n)).toList := by
  rw [fillPiece]
  constructor
  · rintro (harg | hnone)
    · rw [harg, Option.getD_some]
    · rw [hnone, Option.getD_none]
  · rintro rfl
    cases harg : args[n]? with
    | none => exact .left harg
    | some arg => exact .filled harg

theorem toList_fill_cons (p : Piece) (t : Template) :
    (fill (p :: t) args).toList = (fillPiece args p).toList ++ (fill t args).toList := by
  simp [fill]

theorem fills_text_iff {t : Template} (h : t.IsPlain) {out : List Char} :
    Fills args t.text.toList out ↔ out = (t.fill args).toList := by
  induction t generalizing out with
  | nil => exact fills_nil_iff
  | cons p t ih =>
    replace ih {out : List Char} := @ih (fun q hq => h q (List.mem_cons_of_mem p hq)) out
    rw [toList_text_cons, toList_fill_cons]
    cases p with
    | text s =>
      have hs : '\x7b' ∉ s.toList := h (.text s) List.mem_cons_self
      simp only [pieceText, fillPiece, fills_append_iff hs, ih, exists_eq_left]
    | slot n =>
      simp only [pieceText, fills_place_iff (isPlace_slotText n), ih, shows_slot_iff,
        exists_and_left, exists_eq_left]

/-- The text of a template has the places of the template and no others. -/
theorem hasPlace_text_iff {t : Template} (h : t.IsPlain) {n : Nat} :
    HasPlace n t.text.toList ↔ .slot n ∈ t := by
  induction t with
  | nil =>
    refine iff_of_false ?_ List.not_mem_nil
    rintro ⟨w, hw, hinfix⟩
    exact hw.ne_nil (List.infix_nil.1 hinfix)
  | cons p t ih =>
    rw [List.mem_cons, ← ih fun q hq => h q (List.mem_cons_of_mem p hq), toList_text_cons]
    cases p with
    | text s =>
      have hs : '\x7b' ∉ s.toList := h (.text s) List.mem_cons_self
      simp only [HasPlace, pieceText, reduceCtorEq, false_or]
      exact exists_congr fun w => and_congr_right fun hw => hw.infix_append_iff hs _
    | slot m =>
      rw [Piece.slot.injEq, pieceText]
      constructor
      · rintro ⟨w, hw, hinfix⟩
        obtain ⟨digits, -, hdigits, -, hm⟩ := isPlace_slotText m
        have hopening : '\x7b' ∉ digits ++ ['\x7d'] := by
          rw [List.mem_append, List.mem_singleton, not_or]
          exact ⟨fun hmem => absurd (hdigits _ hmem) (by decide), by decide⟩
        rw [hm, List.cons_append, List.infix_cons_iff, ← List.cons_append, ← hm,
          hw.infix_append_iff hopening] at hinfix
        rcases hinfix with ⟨r, hr⟩ | hinfix
        · exact .inl (hw.unique (isPlace_slotText m) hr).1
        · exact .inr ⟨w, hw, hinfix⟩
      · rintro (rfl | ⟨w, hw, hinfix⟩)
        · exact ⟨_, isPlace_slotText n, (List.prefix_append _ _).isInfix⟩
        · exact ⟨w, hw, hinfix.trans (List.suffix_append _ _).isInfix⟩

end Template

namespace Code

open Template

theorem isPlain_template (c : Code) : c.template.IsPlain :=
  (by decide : ∀ c ∈ all, c.template.IsPlain) c c.mem_all

theorem slot_mem_template_iff (c : Code) (n : Nat) :
    .slot n ∈ c.template ↔ n < c.template.arity := by
  cases c <;> simp [template, arity] <;> omega

theorem hasPlace_template_iff (c : Code) (n : Nat) :
    HasPlace n c.template.text.toList ↔ n < c.template.arity :=
  (hasPlace_text_iff c.isPlain_template).trans (c.slot_mem_template_iff n)

end Code

namespace Error

open Template

theorem length_arguments (e : Error) : e.arguments.length = e.code.template.arity := by
  cases e <;> rfl

structure IsReported (e : Error) (d : Diagnostic) : Prop where
  code : d.code = e.code
  location : d.location = e.location
  severity : d.severity = .error
  length : e.arguments.length = e.code.template.arity
  /-- Every place of the message has an argument, and every argument has a place. -/
  places : ∀ n, HasPlace n e.code.template.text.toList ↔ n < e.arguments.length
  message : ∀ out, Fills e.arguments e.code.template.text.toList out ↔ out = d.message.toList

theorem isReported_diagnostic (e : Error) : e.IsReported e.diagnostic where
  code := rfl
  location := rfl
  severity := beq_iff_eq.1 e.isError_diagnostic
  length := e.length_arguments
  places n := by rw [e.length_arguments, e.code.hasPlace_template_iff]
  message _ := fills_text_iff e.code.isPlain_template

end Error

/-- Errors are reported with their arguments as they are, and under each code any arguments fill the
places that they have. -/
theorem messages_reproduce_arguments :
    (∀ e : Error, e.IsReported e.diagnostic) ∧
      ∀ c : Code, (∀ n, Template.HasPlace n c.template.text.toList ↔ n < c.template.arity) ∧
        ∀ args out, Template.Fills args c.template.text.toList out ↔
          out = (c.template.fill args).toList :=
  ⟨Error.isReported_diagnostic, fun c =>
    ⟨c.hasPlace_template_iff, fun _ _ => Template.fills_text_iff c.isPlain_template⟩⟩

/-- An argument that is written like a place. -/
example : (Error.duplicateKey (.ofString "a.csv") "\x7b0\x7d" none).diagnostic.message =
    "duplicate key `\x7b0\x7d` in `a.csv`" := by
  decide +kernel

end Phrasebook
