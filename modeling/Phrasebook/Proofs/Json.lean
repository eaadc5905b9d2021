import Mathlib.Data.List.TakeWhile
import Phrasebook.Json.Spelling
import Phrasebook.Proofs.Utf8

namespace Phrasebook.Json

namespace Reader

theorem four_le_length (a b c d : Char) (r : List Char) :
    4 ≤ Text.Utf8.length (a :: b :: c :: d :: r) := by
  have ha := a.utf8Size_pos
  have hb := b.utf8Size_pos
  have hc := c.utf8Size_pos
  have hd := d.utf8Size_pos
  simp only [Text.Utf8.length, List.foldr_cons]
  omega

theorem hexEscape_eq_ok {n : Nat} {h : List Char} (hn : HexSpelling n h) (r : List Char) :
    hexEscape (h ++ r) = .ok (n, r) := by
  obtain ⟨hcode⟩ := hn
  next a b c d =>
  have hlength : ¬Text.Utf8.length (a :: b :: c :: d :: r) < 4 :=
    Nat.not_lt.2 (four_le_length a b c d r)
  change hexEscape (a :: b :: c :: d :: r) = _
  rw [hexEscape, if_neg hlength]
  simp only [hcode]

theorem not_half (c : Char) :
    Encoding.isLowHalf c.toNat = false ∧ Encoding.isHighHalf c.toNat = false := by
  obtain ⟨-, hvalid⟩ := Text.Utf8.toNat_valid c
  constructor
  · rw [Encoding.isLowHalf, Bool.and_eq_false_iff, decide_eq_false_iff_not,
      decide_eq_false_iff_not]
    omega
  · rw [Encoding.isHighHalf, Bool.and_eq_false_iff, decide_eq_false_iff_not,
      decide_eq_false_iff_not]
    omega

theorem unicodeEscape_unit {c : Char} {h : List Char} (hc : HexSpelling c.toNat h)
    (r : List Char) : unicodeEscape (h ++ r) = .ok (c, r) := by
  obtain ⟨hlow, hhigh⟩ := not_half c
  simp only [unicodeEscape, hexEscape_eq_ok hc, bind, Except.bind, hlow, hhigh, Char.ofNat_toNat,
    Bool.false_eq_true, if_false]

theorem halves_of_units {c : Char} {m n : Nat} (h : Encoding.unitsOfChar c = [m, n]) :
    Encoding.isHighHalf m = true ∧ Encoding.isLowHalf m = false ∧
      Encoding.isLowHalf n = true ∧ Encoding.joinHalves m n = c := by
  obtain ⟨hlt, -⟩ := Text.Utf8.toNat_valid c
  unfold Encoding.unitsOfChar at h
  split at h
  · cases h
  · next hlarge =>
    simp only [List.cons.injEq, and_true] at h
    obtain ⟨rfl, rfl⟩ := h
    have hjoin : 0x10000 + (0xD800 + (c.toNat - 0x10000) / 0x400 - 0xD800) * 0x400 +
        (0xDC00 + (c.toNat - 0x10000) % 0x400 - 0xDC00) = c.toNat := by omega
    refine ⟨?_, ?_, ?_, (congrArg Char.ofNat hjoin).trans c.ofNat_toNat⟩
    all_goals
      simp only [Encoding.isHighHalf, Encoding.isLowHalf, Bool.and_eq_true, Bool.and_eq_false_iff,
        decide_eq_true_eq, decide_eq_false_iff_not]
      omega

theorem unicodeEscape_pair {c : Char} {m n : Nat} {g h : List Char}
    (hunits : Encoding.unitsOfChar c = [m, n]) (hm : HexSpelling m g) (hn : HexSpelling n h)
    (r : List Char) : unicodeEscape (g ++ '\\' :: 'u' :: (h ++ r)) = .ok (c, r) := by
  obtain ⟨hhigh, hnot, hlow, hjoin⟩ := halves_of_units hunits
  simp only [unicodeEscape, hexEscape_eq_ok hm, hexEscape_eq_ok hn, bind, Except.bind, hhigh, hnot,
    hlow, hjoin, Bool.false_eq_true, if_false, if_true]

theorem escape_short {c e : Char} (h : ShortEscape c e) (r : List Char) :
    escape (e :: r) = .ok (c, r) := by
  cases h <;> rfl

/-- However a character is spelled, it is read in one step. -/
theorem stringBody_char {c : Char} {s : List Char} (h : CharSpelling c s) {fuel : Nat}
    {t cs r : List Char} (ht : stringBody fuel t = .ok (cs, r)) :
    stringBody (fuel + 1) (s ++ t) = .ok (c :: cs, r) := by
  have escaped {u : List Char} (hu : escape u = .ok (c, t)) :
      stringBody (fuel + 1) ('\\' :: u) = .ok (c :: cs, r) := by
    rw [stringBody, if_neg (by decide), if_pos rfl, hu]
    simp only [bind, Except.bind, ht]
  cases h with
  | plain hcontrol hquote hslash =>
    rw [List.singleton_append, stringBody, if_neg hquote, if_neg hslash,
      if_neg (Nat.not_lt.2 hcontrol)]
    simp only [bind, Except.bind, ht]
  | short hshort => exact escaped (escape_short hshort t)
  | unit hunit => exact escaped (unicodeEscape_unit hunit t)
  | pair hunits hm hn =>
    rw [List.append_assoc, List.cons_append, List.cons_append]
    exact escaped (unicodeEscape_pair hunits hm hn t)

theorem stringBody_body {cs t : List Char} (h : BodySpelling cs t) (r : List Char) {fuel : Nat}
    (hfuel : cs.length < fuel) : stringBody fuel (t ++ '"' :: r) = .ok (cs, r) := by
  induction h generalizing fuel with
  | nil =>
    obtain ⟨fuel, rfl⟩ := Nat.exists_eq_succ_of_ne_zero (Nat.ne_of_gt hfuel)
    rfl
  | cons hc _ ih =>
    obtain ⟨fuel, rfl⟩ := Nat.exists_eq_succ_of_ne_zero (Nat.ne_zero_of_lt hfuel)
    rw [List.append_assoc]
    exact stringBody_char hc (ih (Nat.lt_of_succ_lt_succ hfuel))

theorem length_body {cs t : List Char} (h : BodySpelling cs t) : cs.length ≤ t.length := by
  induction h with
  | nil => exact Nat.le_refl 0
  | cons hc _ ih =>
    rw [List.length_cons, List.length_append, Nat.add_comm]
    refine Nat.add_le_add ?_ ih
    cases hc <;> exact Nat.succ_pos _

theorem string_body {cs t : List Char} (h : BodySpelling cs t) (r : List Char) :
    string (t ++ '"' :: r) = .ok (.ofList cs, r) := by
  have hfuel : cs.length < (t ++ '"' :: r).length := by
    have := length_body h
    rw [List.length_append, List.length_cons]
    omega
  simp only [string, stringBody_body h r hfuel, bind, Except.bind]

theorem skipSpace_blanks {a : List Char} (h : Blanks a) {c : Char} (hc : isSpace c = false)
    (r : List Char) : skipSpace (a ++ c :: r) = c :: r := by
  obtain ⟨ha⟩ := h
  rw [skipSpace, List.dropWhile_append_of_pos ha, List.dropWhile_cons_of_neg (by simp [hc])]

theorem colon_blanks {a : List Char} (h : Blanks a) (r : List Char) :
    colon (a ++ ':' :: r) = .ok r := by
  rw [colon, skipSpace_blanks h rfl]
  rfl

inductive Lead : Bool → List Char → Prop
  | first : Lead true []
  | next {b} : Blanks b → Lead false (b ++ [','])

theorem nextMember_lead {first : Bool} {l a : List Char} (hl : Lead first l) (ha : Blanks a)
    (r : List Char) : nextMember first (l ++ (a ++ '"' :: r)) = .ok (true, r) := by
  cases hl with
  | first =>
    rw [List.nil_append, nextMember, skipSpace_blanks ha rfl]
    rfl
  | next hb =>
    rw [List.append_assoc, List.singleton_append, nextMember, skipSpace_blanks hb rfl]
    simp [skipSpace_blanks ha (c := '"') rfl]

theorem nextMember_close (first : Bool) {b : List Char} (h : Blanks b) (r : List Char) :
    nextMember first (b ++ '\x7d' :: r) = .ok (false, r) := by
  rw [nextMember, skipSpace_blanks h rfl]
  rfl

theorem value_text {v t b : List Char} (ht : TextSpelling v t) (hb : Blanks b) (fuel depth : Nat)
    (r : List Char) :
    value (fuel + 1) depth (b ++ (t ++ r)) = .ok (.string (.ofList v), r) := by
  obtain ⟨hbody⟩ := ht
  rw [List.cons_append, List.cons_append, List.append_assoc, List.singleton_append, value,
    skipSpace_blanks hb rfl]
  simp only [string_body hbody, bind, Except.bind]

def textMember (m : List Char × List Char) : String × Value := (.ofList m.1, .string (.ofList m.2))

theorem members_member {m : List Char × List Char} {s : List Char} (hs : MemberSpelling m s)
    {first : Bool} {l a : List Char} (hl : Lead first l) (ha : Blanks a) {fuel depth : Nat}
    {t r : List Char} {ms : List (String × Value)}
    (ht : members (fuel + 1) depth false t = .ok (ms, r)) :
    members (fuel + 2) depth first (l ++ (a ++ (s ++ t))) = .ok (textMember m :: ms, r) := by
  obtain ⟨hname, hvalue, hbefore, hbehind⟩ := hs
  obtain ⟨hbody⟩ := hname
  simp only [List.cons_append, List.append_assoc, List.nil_append]
  rw [members, nextMember_lead hl ha]
  simp only [bind, Except.bind, if_true, string_body hbody, colon_blanks hbefore,
    value_text hvalue hbehind, ht]
  rfl

theorem members_members {ms : List (List Char × List Char)} {s : List Char}
    (h : MembersSpelling ms s) {first : Bool} {l : List Char} (hl : Lead first l)
    {fuel : Nat} (hfuel : ms.length < fuel) (depth : Nat) (r : List Char) :
    members fuel depth first (l ++ (s ++ '\x7d' :: r)) = .ok (ms.map textMember, r) := by
  induction h generalizing first l fuel with
  | @last m a s b ha hs hb =>
    obtain ⟨fuel, rfl⟩ := Nat.exists_eq_add_of_lt hfuel
    have hclose : members (fuel + 1) depth false (b ++ '\x7d' :: r) = .ok ([], r) := by
      rw [members, nextMember_close false hb]
      rfl
    have hmember := members_member hs hl ha hclose
    simp only [List.append_assoc, List.length_singleton] at hmember ⊢
    rw [Nat.add_comm 1 fuel]
    exact hmember
  | @cons m ms a s b t ha hs hb _ ih =>
    rw [List.length_cons] at hfuel
    obtain ⟨fuel, rfl⟩ := Nat.exists_eq_add_of_lt hfuel
    have hbound : ms.length < ms.length + fuel + 1 := by omega
    have hrest := ih (.next hb) hbound
    simp only [List.append_assoc, List.singleton_append] at hrest
    have hmember := members_member hs hl ha hrest
    simp only [List.append_assoc, List.cons_append] at hmember ⊢
    rw [Nat.add_right_comm ms.length 1 fuel]
    exact hmember

theorem length_members {ms : List (List Char × List Char)} {s : List Char}
    (h : MembersSpelling ms s) : ms.length ≤ s.length := by
  have hpos {m : List Char × List Char} {s : List Char} (hs : MemberSpelling m s) :
      0 < s.length := by
    obtain ⟨-, -, -, -⟩ := hs
    simp only [List.length_append, List.length_cons]
    omega
  induction h with
  | last _ hs _ =>
    have := hpos hs
    simp only [List.length_append, List.length_singleton]
    omega
  | cons _ hs _ _ ih =>
    have := hpos hs
    simp only [List.length_append, List.length_cons]
    omega

theorem finish_blanks {b : List Char} (h : Blanks b) : finish b = .ok () := by
  obtain ⟨hb⟩ := h
  have hnil : skipSpace b = [] := List.dropWhile_eq_nil_iff.2 hb
  rw [finish, hnil]

theorem objectDocument_object {ms : List (List Char × List Char)} {t : List Char}
    (h : ObjectSpelling ms t) : objectDocument t = .ok (ms.map textMember) := by
  cases h with
  | @empty a b c ha hb hc =>
    simp only [List.append_assoc, List.cons_append]
    rw [objectDocument, skipSpace_blanks ha rfl]
    have hmembers : members (enough (a ++ '\x7b' :: (b ++ '\x7d' :: c))) (maxDepth - 1) true
        (b ++ '\x7d' :: c) = .ok ([], c) := by
      rw [enough, members, nextMember_close true hb]
      rfl
    simp only [hmembers, bind, Except.bind, finish_blanks hc]
    rfl
  | @members _ a s b ha hs hb =>
    simp only [List.append_assoc, List.cons_append]
    rw [objectDocument, skipSpace_blanks ha rfl]
    have hfuel : ms.length < enough (a ++ '\x7b' :: (s ++ '\x7d' :: b)) := by
      have := length_members hs
      simp only [enough, List.length_append, List.length_cons]
      omega
    have hmembers := members_members hs .first hfuel (maxDepth - 1) b
    rw [List.nil_append] at hmembers
    simp only [hmembers, bind, Except.bind, finish_blanks hb]

end Reader

theorem parseObject_object {ms : List (List Char × List Char)} {t : List Char}
    (h : ObjectSpelling ms t) : parseObject t = .ok (ms.map Reader.textMember) := by
  rw [parseObject, Reader.objectDocument_object h]
  rfl

end Phrasebook.Json
