import Phrasebook.Json.Tree
import Phrasebook.Proofs.Json
import Phrasebook.Proofs.Literal

/-!
Reading strings. The reader takes a string mark by mark up to the quote that closes it, and returns
the text that the marks have. It refuses a string only where a half of a character stands alone.
-/

namespace Phrasebook.Json

theorem MarksSpelling.append {ms ms' : List Mark} {s t : List Char} (h : MarksSpelling ms s)
    (h' : MarksSpelling ms' t) : MarksSpelling (ms ++ ms') (s ++ t) := by
  induction h with
  | nil => exact h'
  | cons hm _ ih =>
    rw [List.append_assoc]
    exact .cons hm ih

namespace Reader

section

variable {n m : Nat} {h g : List Char} (hn : HexSpelling n h)

include hn

theorem unicodeEscape_low (hlow : Encoding.isLowHalf n = true) (u : List Char) :
    (unicodeEscape (h ++ u)).toOption = none := by
  simp only [unicodeEscape, hexEscape_eq_ok hn, bind, Except.bind, hlow, if_true]
  rfl

theorem unicodeEscape_single (hlow : Encoding.isLowHalf n = false)
    (hhigh : Encoding.isHighHalf n = false) (u : List Char) :
    unicodeEscape (h ++ u) = .ok (.ofNat n, u) := by
  simp only [unicodeEscape, hexEscape_eq_ok hn, bind, Except.bind, hlow, hhigh, Bool.false_eq_true,
    if_false]

theorem unicodeEscape_halves (hg : HexSpelling m g) (hlow : Encoding.isLowHalf n = false)
    (hhigh : Encoding.isHighHalf n = true) (u : List Char) :
    (unicodeEscape (h ++ '\\' :: 'u' :: (g ++ u))).toOption =
      if Encoding.isLowHalf m then some (Encoding.joinHalves n m, u) else none := by
  simp only [unicodeEscape, hexEscape_eq_ok hn, hexEscape_eq_ok hg, bind, Except.bind, hlow, hhigh,
    Bool.false_eq_true, if_false, if_true]
  split <;> rfl

theorem unicodeEscape_high (hlow : Encoding.isLowHalf n = false)
    (hhigh : Encoding.isHighHalf n = true) {u : List Char} (hu : ∀ v, u ≠ '\\' :: 'u' :: v) :
    (unicodeEscape (h ++ u)).toOption = none := by
  simp only [unicodeEscape, hexEscape_eq_ok hn, bind, Except.bind, hlow, hhigh,
    Bool.false_eq_true, if_false, if_true]
  split
  · rfl
  · next v => exact absurd rfl (hu v)
  · rfl
  · rfl
  · rfl

end

section

variable (fuel : Nat)

theorem toOption_stringBody_plain {c : Char} (hcontrol : 0x20 ≤ c.toNat) (hquote : c ≠ '"')
    (hslash : c ≠ '\\') (v : List Char) : (stringBody (fuel + 1) (c :: v)).toOption =
      (stringBody fuel v).toOption.map fun p => (c :: p.1, p.2) := by
  rw [stringBody, if_neg hquote, if_neg hslash, if_neg (Nat.not_lt.2 hcontrol)]
  cases stringBody fuel v <;> rfl

theorem toOption_stringBody_escape (u : List Char) :
    (stringBody (fuel + 1) ('\\' :: u)).toOption = (escape u).toOption.bind fun q =>
      (stringBody fuel q.2).toOption.map fun p => (q.1 :: p.1, p.2) := by
  rw [stringBody, if_neg (by decide), if_pos rfl]
  cases escape u with
  | error e => rfl
  | ok q =>
    change Except.toOption (stringBody fuel q.2 >>= _) = Option.map _ _
    cases stringBody fuel q.2 <;> rfl

end

theorem marks_ne_unit {ms : List Mark} {t : List Char} (h : MarksSpelling ms t)
    (hms : ∀ m ms', ms ≠ .unit m :: ms') (r v : List Char) :
    t ++ '"' :: r ≠ '\\' :: 'u' :: v := by
  cases h with
  | nil => nofun
  | cons hm _ =>
    cases hm with
    | plain _ _ hslash => exact fun h => hslash (List.cons.inj h).1
    | short he => cases he <;> nofun
    | unit _ => exact absurd rfl (hms _ _)

theorem toOption_stringBody {ms : List Mark} {t : List Char} (h : MarksSpelling ms t)
    (r : List Char) {fuel : Nat} (hfuel : ms.length < fuel) :
    (stringBody fuel (t ++ '"' :: r)).toOption = (Mark.chars? ms).map (·, r) := by
  have escaped {u v : List Char} {c : Char} {ms : List Mark} {fuel : Nat}
      (hu : (escape u).toOption = some (c, v))
      (hv : (stringBody fuel v).toOption = (Mark.chars? ms).map (·, r)) :
      (stringBody (fuel + 1) ('\\' :: u)).toOption =
        ((Mark.chars? ms).map (c :: ·)).map (·, r) := by
    rw [toOption_stringBody_escape, hu, Option.bind_some, hv, Option.map_map, Option.map_map]
    rfl
  have refused {u : List Char} {fuel : Nat} (hu : (escape u).toOption = none) :
      (stringBody (fuel + 1) ('\\' :: u)).toOption = none := by
    rw [toOption_stringBody_escape, hu, Option.bind_none]
  -- on how the marks go together, for two of them may be read in one step
  fun_induction Mark.chars? ms generalizing t fuel with
  | case1 =>
    cases h
    obtain ⟨fuel, rfl⟩ := Nat.exists_eq_succ_of_ne_zero (Nat.ne_of_gt hfuel)
    rfl
  | case2 c ms ih =>
    obtain ⟨fuel, rfl⟩ := Nat.exists_eq_succ_of_ne_zero (Nat.ne_zero_of_lt hfuel)
    cases h with | cons hm ht =>
    have hrest := ih ht (Nat.lt_of_succ_lt_succ hfuel)
    rw [List.append_assoc]
    cases hm with
    | plain hcontrol hquote hslash =>
      rw [List.singleton_append, toOption_stringBody_plain _ hcontrol hquote hslash, hrest,
        Option.map_map, Option.map_map]
      rfl
    | short he => exact escaped (congrArg Except.toOption (escape_short he _)) hrest
  | case3 n m ms hlow =>
    obtain ⟨fuel, rfl⟩ := Nat.exists_eq_succ_of_ne_zero (Nat.ne_zero_of_lt hfuel)
    cases h with | cons hm ht =>
    cases hm with | unit hn =>
    rw [List.append_assoc]
    exact refused (unicodeEscape_low hn hlow _)
  | case4 n m ms hlow hhigh hpair ih =>
    obtain ⟨fuel, rfl⟩ := Nat.exists_eq_succ_of_ne_zero (Nat.ne_zero_of_lt hfuel)
    cases h with | cons hm ht =>
    cases hm with | unit hn =>
    cases ht with | cons hm ht =>
    cases hm with | unit hg =>
    rw [List.append_assoc, List.append_assoc]
    refine escaped ((unicodeEscape_halves hn hg (Bool.of_not_eq_true hlow) hhigh _).trans
      (if_pos hpair)) (ih ht ?_)
    exact Nat.lt_of_succ_lt (Nat.lt_of_succ_lt_succ hfuel)
  | case5 n m ms hlow hhigh hpair =>
    obtain ⟨fuel, rfl⟩ := Nat.exists_eq_succ_of_ne_zero (Nat.ne_zero_of_lt hfuel)
    cases h with | cons hm ht =>
    cases hm with | unit hn =>
    cases ht with | cons hm ht =>
    cases hm with | unit hg =>
    rw [List.append_assoc, List.append_assoc]
    exact refused ((unicodeEscape_halves hn hg (Bool.of_not_eq_true hlow) hhigh _).trans
      (if_neg hpair))
  | case6 n m ms hlow hhigh ih =>
    obtain ⟨fuel, rfl⟩ := Nat.exists_eq_succ_of_ne_zero (Nat.ne_zero_of_lt hfuel)
    cases h with | cons hm ht =>
    cases hm with | unit hn =>
    rw [List.append_assoc]
    exact escaped (congrArg Except.toOption (unicodeEscape_single hn (Bool.of_not_eq_true hlow)
      (Bool.of_not_eq_true hhigh) _)) (ih ht (Nat.lt_of_succ_lt_succ hfuel))
  | case7 n ms hms hhalf =>
    obtain ⟨fuel, rfl⟩ := Nat.exists_eq_succ_of_ne_zero (Nat.ne_zero_of_lt hfuel)
    cases h with | cons hm ht =>
    cases hm with | unit hn =>
    rw [List.append_assoc]
    cases hlow : Encoding.isLowHalf n with
    | true => exact refused (unicodeEscape_low hn hlow _)
    | false =>
      rw [hlow, Bool.false_or] at hhalf
      exact refused (unicodeEscape_high hn hlow hhalf (marks_ne_unit ht hms r))
  | case8 n ms hms hhalf ih =>
    obtain ⟨fuel, rfl⟩ := Nat.exists_eq_succ_of_ne_zero (Nat.ne_zero_of_lt hfuel)
    cases h with | cons hm ht =>
    cases hm with | unit hn =>
    rw [List.append_assoc]
    obtain ⟨hlow, hhigh⟩ := Bool.or_eq_false_iff.1 (Bool.of_not_eq_true hhalf)
    exact escaped (congrArg Except.toOption (unicodeEscape_single hn hlow hhigh _))
      (ih ht (Nat.lt_of_succ_lt_succ hfuel))

theorem length_marks {ms : List Mark} {t : List Char} (h : MarksSpelling ms t) :
    ms.length ≤ t.length := by
  induction h with
  | nil => exact Nat.le_refl 0
  | cons hm _ ih =>
    rw [List.length_cons, List.length_append, Nat.add_comm]
    refine Nat.add_le_add ?_ ih
    cases hm <;> exact Nat.succ_pos _

theorem toOption_string {ms : List Mark} {t : List Char} (h : MarksSpelling ms t)
    (r : List Char) : (string (t ++ '"' :: r)).toOption = (Mark.text? ms).map (·, r) := by
  have hfuel : ms.length < (t ++ '"' :: r).length := by
    have := length_marks h
    rw [List.length_append, List.length_cons]
    omega
  rw [string, toOption_bind, toOption_stringBody h r hfuel, Mark.text?, Option.map_map]
  cases Mark.chars? ms <;> rfl

theorem exists_hexSpelling {cs r : List Char} {n : Nat} (h : hexEscape cs = .ok (n, r)) :
    ∃ g, HexSpelling n g ∧ cs = g ++ r := by
  unfold hexEscape at h
  split at h
  · cases h
  · split at h
    · split at h
      · next hcode =>
        cases h
        exact ⟨_, .four hcode, rfl⟩
      · cases h
    · cases h

theorem exists_marks_of_unicodeEscape {u r : List Char} {c : Char}
    (h : unicodeEscape u = .ok (c, r)) :
    ∃ ms s, MarksSpelling ms s ∧ '\\' :: 'u' :: u = s ++ r := by
  obtain ⟨⟨n, v⟩, hn, hunits⟩ := bind_eq_ok.1 h
  obtain ⟨g, hg, rfl⟩ := exists_hexSpelling hn
  have one : MarksSpelling [.unit n] ('\\' :: 'u' :: g ++ []) := .cons (.unit hg) .nil
  rw [List.append_nil] at one
  dsimp only at hunits
  split at hunits
  · cases hunits
  · split at hunits
    · split at hunits
      · cases hunits
      · next v =>
        obtain ⟨⟨m, w⟩, hm, hpair⟩ := bind_eq_ok.1 hunits
        obtain ⟨g', hg', rfl⟩ := exists_hexSpelling hm
        dsimp only at hpair
        split at hpair
        · obtain ⟨-, rfl⟩ := Prod.mk.inj (Except.ok.inj hpair)
          refine ⟨_, _, .cons (.unit hg) (.cons (.unit hg') .nil), ?_⟩
          simp only [List.append_nil, List.append_assoc, List.cons_append]
        · cases hpair
      · cases hunits
      · cases hunits
      · cases hunits
    · obtain ⟨-, rfl⟩ := Prod.mk.inj (Except.ok.inj hunits)
      exact ⟨_, _, one, rfl⟩

theorem exists_marks_of_escape {u r : List Char} {c : Char} (h : escape u = .ok (c, r)) :
    ∃ ms s, MarksSpelling ms s ∧ '\\' :: u = s ++ r := by
  have short {c e : Char} (he : ShortEscape c e) :
      ∃ ms s, MarksSpelling ms s ∧ '\\' :: e :: r = s ++ r :=
    ⟨_, _, .cons (.short he) .nil, rfl⟩
  unfold escape at h
  split at h
  · cases h
  · cases h
    exact short .quote
  · cases h
    exact short .backslash
  · cases h
    exact short .slash
  · cases h
    exact short .backspace
  · cases h
    exact short .formFeed
  · cases h
    exact short .lineFeed
  · cases h
    exact short .carriageReturn
  · cases h
    exact short .tab
  · exact exists_marks_of_unicodeEscape h
  · cases h

theorem exists_marks {fuel : Nat} {cs content r : List Char}
    (h : stringBody fuel cs = .ok (content, r)) :
    ∃ ms t, MarksSpelling ms t ∧ cs = t ++ '"' :: r := by
  induction fuel generalizing cs content with
  | zero => cases cs <;> cases h
  | succ fuel ih =>
    cases cs with
    | nil => cases h
    | cons c u =>
      rw [stringBody] at h
      split at h
      · next hquote =>
        cases h
        exact ⟨[], [], .nil, congrArg (· :: _) hquote⟩
      · next hquote =>
        split at h
        · next hslash =>
          obtain ⟨⟨e, v⟩, he, h⟩ := bind_eq_ok.1 h
          obtain ⟨⟨content, r'⟩, hrest, h⟩ := bind_eq_ok.1 h
          cases h
          obtain ⟨ms, s, hs, heq⟩ := exists_marks_of_escape he
          obtain ⟨ms', t, ht, rfl⟩ := ih hrest
          exact ⟨_, _, hs.append ht, by rw [hslash, heq, List.append_assoc]⟩
        · next hslash =>
          split at h
          · cases h
          · next hcontrol =>
            obtain ⟨⟨content, r'⟩, hrest, h⟩ := bind_eq_ok.1 h
            cases h
            obtain ⟨ms, t, ht, rfl⟩ := ih hrest
            exact ⟨_, _, .cons (.plain (Nat.not_lt.1 hcontrol) hquote hslash) ht, rfl⟩

theorem exists_string {cs r : List Char} {s : String} (h : string cs = .ok (s, r)) :
    ∃ ms t, StringSpelling ms t ∧ '"' :: cs = t ++ r := by
  obtain ⟨⟨content, r'⟩, hbody, h⟩ := bind_eq_ok.1 h
  cases h
  obtain ⟨ms, t, ht, rfl⟩ := exists_marks hbody
  exact ⟨ms, _, .string ht, by simp⟩

end Reader

end Phrasebook.Json
