import Phrasebook.Proofs.Parts

namespace Phrasebook

namespace Decimal.Scientific

open Json (decimal)

section

variable {cs : List Char} (hcs : ∀ c ∈ cs, c.isDigit = true) (hne : cs ≠ [])
  (hhead : cs.head? ≠ some '0')

include hcs hne hhead

theorem ofPoint_exact (hlast : cs.getLast? ≠ some '0') (k : Int) :
    (ofPoint (decimal cs) k).chars = cs ∧ (ofPoint (decimal cs) k).point = k + cs.length := by
  obtain ⟨n, heq, -, hpoint⟩ := ofPoint_decimal hcs hne hhead k
  refine ⟨?_, hpoint⟩
  cases n with
  | zero => exact (heq.trans (List.append_nil _)).symm
  | succ n =>
    rw [heq, List.replicate_succ', ← List.append_assoc, List.getLast?_concat] at hlast
    exact absurd rfl hlast

theorem parts_whole (hlength : cs.length ≤ 16) :
    (ofPoint (decimal cs) 0).parts Json.Number.style = ⟨cs, ['0'], []⟩ := by
  obtain ⟨n, heq, -, hpoint⟩ := ofPoint_decimal hcs hne hhead 0
  have hpos := List.length_pos_iff.2 hne
  have hlengths := congrArg List.length heq
  rw [List.length_append, List.length_replicate] at hlengths
  rw [parts, if_pos ((pointed_iff _).2 (by omega)), pointed, if_neg (by omega),
    if_pos (by omega)]
  congr 1
  have hzeros :
      (ofPoint (decimal cs) 0).point.toNat - (ofPoint (decimal cs) 0).chars.length = n := by
    omega
  rw [hzeros, ← heq]

theorem parts_zeros (hlast : cs.getLast? ≠ some '0') {n : Nat} (hn : n ≤ 4) :
    (ofPoint (decimal cs) (-(List.replicate n '0' ++ cs).length)).parts Json.Number.style =
      ⟨['0'], List.replicate n '0' ++ cs, []⟩ := by
  obtain ⟨hchars, hpoint⟩ :=
    ofPoint_exact hcs hne hhead hlast (-(List.replicate n '0' ++ cs).length)
  generalize hx : ofPoint (decimal cs) (-(List.replicate n '0' ++ cs).length) = x at hchars hpoint ⊢
  rw [List.length_append, List.length_replicate] at hpoint
  have hzeros : (-x.point).toNat = n := by omega
  rw [parts, if_pos (x.pointed_iff.2 (by omega)), pointed, if_pos (by omega), hchars, hzeros]

end

section

variable {i f : List Char} (hi : ∀ c ∈ i, c.isDigit = true) (hne : i ≠ [])
  (hhead : i.head? ≠ some '0') (hf : ∀ c ∈ f, c.isDigit = true)

include hi hne hhead hf

theorem ofPoint_append (hlast : (i ++ f).getLast? ≠ some '0') (k : Int) :
    (ofPoint (decimal (i ++ f)) (k - f.length)).chars = i ++ f ∧
      (ofPoint (decimal (i ++ f)) (k - f.length)).point = k + i.length := by
  have hdigits := List.forall_mem_append.2 ⟨hi, hf⟩
  have hhead' : (i ++ f).head? ≠ some '0' := by rwa [List.head?_append_of_ne_nil _ hne]
  obtain ⟨hchars, hpoint⟩ := ofPoint_exact hdigits (List.append_ne_nil_of_left_ne_nil hne _) hhead'
    hlast (k - f.length)
  refine ⟨hchars, hpoint.trans ?_⟩
  rw [List.length_append]
  push_cast
  ring

theorem parts_fraction (hlast : f.getLast? ≠ some '0') (hfraction : f ≠ [])
    (hlength : i.length ≤ 16) :
    (ofPoint (decimal (i ++ f)) (0 - f.length)).parts Json.Number.style = ⟨i, f, []⟩ := by
  have hlast' : (i ++ f).getLast? ≠ some '0' := by rwa [List.getLast?_append_of_ne_nil _ hfraction]
  obtain ⟨hchars, hpoint⟩ := ofPoint_append hi hne hhead hf hlast' 0
  generalize hx : ofPoint (decimal (i ++ f)) (0 - f.length) = x at hchars hpoint ⊢
  have hpos := List.length_pos_iff.2 hne
  have hpos' := List.length_pos_iff.2 hfraction
  have htoNat : x.point.toNat = i.length := by omega
  rw [parts, if_pos (x.pointed_iff.2 (by omega)), pointed, if_neg (by omega), hchars, htoNat,
    List.length_append, if_neg (by omega), List.take_left, List.drop_left]

end

theorem parts_power {d : Char} {f : List Char} (hd : d.isDigit = true) (hzero : d ≠ '0')
    (hf : ∀ c ∈ f, c.isDigit = true) (hlast : f.getLast? ≠ some '0') {k : Int}
    (hk : ¬(-5 ≤ k ∧ k < 16)) :
    (ofPoint (decimal (d :: f)) (k - f.length)).parts Json.Number.style =
      ⟨[d], f, 'e' :: (if k < 0 then '-' else '+') :: Nat.toDigits 10 k.natAbs⟩ := by
  have hlast' : ([d] ++ f).getLast? ≠ some '0' := by
    cases f with
    | nil => exact fun h => hzero (Option.some.inj h)
    | cons c f => rwa [List.getLast?_append_of_ne_nil _ (List.cons_ne_nil _ _)]
  obtain ⟨hchars, hpoint⟩ := ofPoint_append (List.forall_mem_singleton.2 hd) (List.cons_ne_nil _ _)
    (fun h => hzero (Option.some.inj h)) hf hlast' k
  have hk' : (ofPoint (decimal ([d] ++ f)) (k - f.length)).point - 1 = k := by
    rw [hpoint]
    exact add_sub_cancel_right k 1
  rw [parts, if_neg (by rwa [pointed_iff, ← List.singleton_append, hk']), raised,
    ← List.singleton_append, hchars, hk']
  rfl

end Decimal.Scientific

namespace Json

open Decimal (Parts Scientific)

namespace Literal

variable {l : Literal}

def parts (l : Literal) : Parts := ⟨l.integer, l.fraction, l.power⟩

theorem apart_parts (l : Literal) : l.parts.Apart where
  isDigit_integer := l.isDigit_integer
  isDigit_fraction := l.isDigit_fraction
  stops := by
    have hstops := Reader.stops_power l Reader.delimits_nil
    rwa [List.append_nil] at hstops
  noPoint := by
    rw [parts, power]
    cases l.exponent with
    | none => exact (Option.some_ne_none _).symm
    | some e =>
      intro h
      have hletter : e.letter = '.' := Option.some.inj h
      rcases e.isLetter with he | he <;> rw [he] at hletter <;> exact absurd hletter (by decide)

def IsNormal (l : Literal) : Prop := l.parts.IsNormal

theorem text_eq_sign_iff {t : String} :
    l.text = (if l.negative then "-" else "") ++ t ↔ l.unsigned = t.toList := by
  rw [text, chars]
  constructor
  · intro h
    have hlist := congrArg String.toList h
    rw [String.toList_ofList, String.toList_append] at hlist
    split at hlist
    · exact (List.cons.inj hlist).2
    · exact hlist
  · intro h
    rw [h]
    split
    · rw [String.ofList_cons, String.ofList_toList]
      rfl
    · rw [String.ofList_toList, String.empty_append]

theorem isNormal_of_text {x : Scientific} (hx : x.IsReduced)
    (h : l.text = (if l.negative then "-" else "") ++ x.text Number.style) : l.IsNormal := by
  rw [text_eq_sign_iff, Scientific.toList_text hx.chars_ne_nil] at h
  rw [IsNormal, l.apart_parts.inj (Scientific.apart_parts hx.isDigit _) h]
  exact hx.isNormal

theorem scientific_of_pos (h : 0 < decimal l.digits) :
    l.scientific = .ofPoint (decimal l.digits) l.shift := if_neg (Nat.ne_of_gt h)

theorem head?_integer (h : l.integer ≠ ['0']) : l.integer.head? ≠ some '0' := mt l.leading h

theorem decimal_pos_of_head? {ds : List Char} (hds : ∀ c ∈ ds, c.isDigit = true) (hne : ds ≠ [])
    (hhead : ds.head? ≠ some '0') : 0 < decimal ds := by
  obtain ⟨d, ds, rfl⟩ := List.exists_cons_of_ne_nil hne
  exact decimal_pos (hds d List.mem_cons_self) fun hzero => hhead (congrArg some hzero)

theorem isDigit_digits (l : Literal) : ∀ c ∈ l.digits, c.isDigit = true :=
  List.forall_mem_append.2 ⟨l.isDigit_integer, l.isDigit_fraction⟩

theorem decimal_zeros (n : Nat) (ds : List Char) :
    decimal (List.replicate n '0' ++ ds) = decimal ds := by
  induction n with
  | zero => rfl
  | succ n ih => exact ih

theorem exists_zeros (f : List Char) : ∃ n cs, f = List.replicate n '0' ++ cs ∧
    cs.head? ≠ some '0' := by
  induction f with
  | nil => exact ⟨0, [], rfl, nofun⟩
  | cons c f ih =>
    by_cases hc : c = '0'
    · obtain ⟨n, cs, rfl, hcs⟩ := ih
      exact ⟨n + 1, cs, by rw [hc, List.replicate_succ, List.cons_append], hcs⟩
    · exact ⟨0, c :: f, rfl, fun h => hc (Option.some.inj h)⟩

section

variable (hexponent : l.exponent = none)

include hexponent

theorem shift_of_none : l.shift = 0 - l.fraction.length := by
  rw [shift, hexponent]
  rfl

theorem parts_below (hinteger : l.integer = ['0'])
    (hsmall : (l.fraction.takeWhile (· == '0')).length ≤ 4) (hfraction : l.fraction ≠ [])
    (hlast : l.fraction.getLast? ≠ some '0') :
    l.scientific.parts Number.style = ⟨['0'], l.fraction, []⟩ := by
  obtain ⟨n, cs, hf, hhead⟩ := exists_zeros l.fraction
  have hne : cs ≠ [] := by
    rintro rfl
    rw [List.append_nil] at hf
    cases n with
    | zero => exact hfraction hf
    | succ n =>
      rw [hf, List.replicate_succ', List.getLast?_concat] at hlast
      exact hlast rfl
  have hcs : ∀ c ∈ cs, c.isDigit = true := fun c hc =>
    l.isDigit_fraction c (hf ▸ List.mem_append_right _ hc)
  rw [hf, Scientific.takeWhile_zeros hhead, List.length_replicate] at hsmall
  rw [hf, List.getLast?_append_of_ne_nil _ hne] at hlast
  have hdecimal : decimal l.digits = decimal cs := by
    rw [digits, hinteger, hf]
    exact decimal_zeros (n + 1) cs
  have hpos := decimal_pos_of_head? hcs hne hhead
  rw [← hdecimal] at hpos
  rw [scientific_of_pos hpos, shift_of_none hexponent, hdecimal, hf, zero_sub]
  exact Scientific.parts_zeros hcs hne hhead hlast hsmall

theorem parts_integer (hlength : l.integer.length ≤ 16) (hfraction : l.fraction = ['0']) :
    l.scientific.parts Number.style = ⟨l.integer, ['0'], []⟩ := by
  have hdecimal : decimal l.digits = decimal l.integer * 10 := by
    rw [digits, hfraction]
    exact decimalFrom_append 0 _ _
  by_cases hinteger : l.integer = ['0']
  · rw [scientific, hdecimal, hinteger]
    rfl
  · have hhead := head?_integer hinteger
    have hpos := decimal_pos_of_head? l.isDigit_integer l.integer_ne_nil hhead
    rw [scientific_of_pos (by omega), shift_of_none hexponent, hdecimal, hfraction,
      Scientific.ofPoint_mul_ten hpos]
    exact Scientific.parts_whole l.isDigit_integer l.integer_ne_nil hhead hlength

end

theorem exists_exponent {ds : List Char} {sign : Char} (hsign : sign.isDigit = false)
    (h : l.power = 'e' :: sign :: ds) :
    ∃ e, l.exponent = some e ∧ e.sign = [sign] ∧ e.digits = ds := by
  rw [power] at h
  cases he : l.exponent with
  | none =>
    rw [he] at h
    cases h
  | some e =>
    rw [he] at h
    obtain ⟨-, hrest⟩ := List.cons.inj h
    refine ⟨e, rfl, ?_⟩
    rcases e.isSign with hs | hs | hs
    · rw [hs, List.nil_append] at hrest
      have := e.isDigit sign (hrest ▸ List.mem_cons_self)
      rw [hsign] at this
      cases this
    · rw [hs] at hrest ⊢
      obtain ⟨rfl, rfl⟩ := List.cons.inj hrest
      exact ⟨rfl, rfl⟩
    · rw [hs] at hrest ⊢
      obtain ⟨rfl, rfl⟩ := List.cons.inj hrest
      exact ⟨rfl, rfl⟩

theorem parts_exponent {d sign : Char} {ds : List Char} (hsign : sign.isDigit = false)
    (hinteger : l.integer = [d]) (hd : d ≠ '0') (hlast : l.fraction.getLast? ≠ some '0')
    (hpower : l.power = 'e' :: sign :: ds) (hds : ds.head? ≠ some '0') {k : Int}
    (hk : (if sign = '-' then -(decimal ds : Int) else decimal ds) = k)
    (hrange : ¬(-5 ≤ k ∧ k < 16)) :
    l.scientific.parts Number.style =
      ⟨[d], l.fraction, 'e' :: (if k < 0 then '-' else '+') :: ds⟩ := by
  obtain ⟨e, he, hesign, rfl⟩ := exists_exponent hsign hpower
  have hdigits : l.digits = d :: l.fraction := by
    rw [digits, hinteger]
    rfl
  have hdigit : d.isDigit = true := l.isDigit_integer d (hinteger ▸ List.mem_cons_self)
  have hpos : 0 < decimal l.digits := hdigits ▸ decimal_pos hdigit hd
  have hvalue : e.value = k := by
    rw [← hk, Exponent.value, Exponent.isDown, hesign]
    by_cases hminus : sign = '-'
    · rw [if_pos hminus, if_pos (by rw [hminus]; rfl)]
      rfl
    · rw [if_neg hminus, if_neg (by simpa using hminus)]
      rfl
  have hshift : l.shift = k - l.fraction.length := by
    rw [shift, he, ← hvalue]
    rfl
  have habs : k.natAbs = decimal e.digits := by
    rw [← hk]
    split <;> simp
  rw [scientific_of_pos hpos, hshift, hdigits,
    Scientific.parts_power hdigit hd l.isDigit_fraction hlast hrange, habs,
    toDigits_decimal e.isDigit e.ne_nil fun h => absurd h hds]

/-- A literal in the form of a number is the spelling of its decimal. -/
theorem parts_scientific (h : l.IsNormal) : l.scientific.parts Number.style = l.parts := by
  unfold IsNormal at h
  generalize hp : l.parts = p at h ⊢
  cases h with
  | @pointed i f hform hlength hsmall =>
    obtain ⟨rfl, rfl, hpower⟩ := Parts.mk.inj hp
    have hexponent : l.exponent = none := by
      rw [power] at hpower
      cases he : l.exponent with
      | none => rfl
      | some e =>
        rw [he] at hpower
        cases hpower
    rcases hform with hf | ⟨hfraction, hlast⟩
    · rw [hf]
      exact parts_integer hexponent hlength hf
    · by_cases hinteger : l.integer = ['0']
      · rw [hinteger]
        exact parts_below hexponent hinteger (hsmall hinteger) hfraction hlast
      · have hhead := head?_integer hinteger
        have hne : l.digits ≠ [] := List.append_ne_nil_of_left_ne_nil l.integer_ne_nil _
        have hpos : 0 < decimal l.digits := decimal_pos_of_head? l.isDigit_digits hne
          (by rwa [digits, List.head?_append_of_ne_nil _ l.integer_ne_nil])
        rw [scientific_of_pos hpos, shift_of_none hexponent]
        exact Scientific.parts_fraction l.isDigit_integer l.integer_ne_nil hhead l.isDigit_fraction
          hlast hfraction hlength
  | @large d f ds hd hf hds hle =>
    obtain ⟨hinteger, rfl, hpower⟩ := Parts.mk.inj hp
    rw [parts_exponent (k := decimal ds) rfl hinteger hd hf hpower hds (if_neg (by decide))
      (by omega), if_neg (by omega)]
  | @small d f ds hd hf hds hle =>
    obtain ⟨hinteger, rfl, hpower⟩ := Parts.mk.inj hp
    rw [parts_exponent (k := -decimal ds) rfl hinteger hd hf hpower hds (if_pos rfl) (by omega),
      if_pos (by omega)]

theorem isReduced_scientific (l : Literal) : l.scientific.IsReduced := by
  rw [scientific]
  split
  · exact .zero
  · next hpos => exact Scientific.isReduced_ofPoint (Nat.pos_of_ne_zero hpos) _

theorem isNormal_iff :
    l.IsNormal ↔ l.text = (if l.negative then "-" else "") ++ l.scientific.text Number.style := by
  constructor
  · intro h
    rw [text_eq_sign_iff, Scientific.toList_text l.isReduced_scientific.chars_ne_nil,
      parts_scientific h]
    rfl
  · exact isNormal_of_text l.isReduced_scientific

end Literal

end Json

end Phrasebook
