import Phrasebook.Proofs.Decimals

namespace Phrasebook

namespace Decimal

open Json (decimal decimalFrom)
open Json.Reader (digitValue)
open Binary64 (digitList significant)

def digitChars (ds : List Nat) : List Char := ds.map fun d => Char.ofNat (48 + d)

theorem digitChars_map {cs : List Char} (hcs : ∀ c ∈ cs, c.isDigit = true) :
    digitChars (cs.map digitValue) = cs := by
  rw [digitChars, List.map_map]
  refine (List.map_congr_left fun c hc => ?_).trans (List.map_id cs)
  have hbounds := Json.toNat_of_isDigit (hcs c hc)
  have hvalue : 48 + digitValue c = c.toNat := by
    rw [digitValue]
    omega
  rw [Function.comp_apply, hvalue, Char.ofNat_toNat, id]

theorem decimalFrom_eq (n : Nat) (ds : List Char) :
    decimalFrom n ds = Nat.ofDigitChars 10 ds n := by
  induction ds generalizing n with
  | nil => rfl
  | cons d ds ih =>
    rw [Nat.ofDigitChars_cons, Nat.mul_comm]
    exact ih _

theorem decimal_toDigits (n : Nat) : decimal (Nat.toDigits 10 n) = n :=
  (decimalFrom_eq 0 _).trans Nat.ofDigitChars_ten_toDigits

theorem isDigit_toDigits (n : Nat) : ∀ c ∈ Nat.toDigits 10 n, c.isDigit = true :=
  fun _ hc => Nat.isDigit_of_mem_toDigits (by decide) (by decide) hc

theorem head?_toDigits {n : Nat} (hn : 0 < n) : (Nat.toDigits 10 n).head? ≠ some '0' := by
  induction n using Nat.strongRecOn with
  | ind n ih =>
    by_cases hlt : n < 10
    · rw [Nat.toDigits_of_lt_base hlt]
      intro h
      have hzero : n.digitChar = '0' := Option.some.inj h
      have := Nat.toNat_digitChar_sub_48_of_lt_ten hlt
      rw [hzero] at this
      exact absurd this (Nat.ne_of_lt hn)
    · rw [Nat.toDigits_of_base_le (by decide) (Nat.not_lt.1 hlt),
        List.head?_append_of_ne_nil _ Nat.toDigits_ne_nil]
      exact ih _ (by omega) (by omega)

theorem exists_significant {cs : List Char} (hcs : ∀ c ∈ cs, c.isDigit = true) : ∃ ts n,
    cs = ts ++ List.replicate n '0' ∧ ts.getLast? ≠ some '0' ∧
      digitChars (significant (cs.map digitValue)) = ts := by
  induction cs using List.reverseRecOn with
  | nil => exact ⟨[], 0, rfl, nofun, rfl⟩
  | append_singleton cs c ih =>
    obtain ⟨hcs', hc⟩ := List.forall_mem_append.1 hcs
    by_cases hzero : c = '0'
    · obtain ⟨ts, n, rfl, hlast, hts⟩ := ih hcs'
      refine ⟨ts, n + 1, ?_, hlast, ?_⟩
      · rw [hzero, List.replicate_succ', List.append_assoc]
      · rw [List.map_append, hzero]
        exact (congrArg digitChars (Scientific.significant_append_zero _)).trans hts
    · refine ⟨cs ++ [c], 0, (List.append_nil _).symm, ?_, ?_⟩
      · rw [List.getLast?_concat]
        exact fun h => hzero (Option.some.inj h)
      · have hvalue : digitValue c ≠ 0 := by
          intro h
          apply hzero
          rw [← Json.digitChar_digitValue (hc c List.mem_cons_self), h]
          rfl
        have hsame : significant ((cs ++ [c]).map digitValue) = (cs ++ [c]).map digitValue := by
          rw [List.map_append]
          exact Scientific.significant_append hvalue _
        rw [hsame, digitChars_map hcs]

namespace Scientific

def chars (x : Scientific) : List Char := digitChars x.digits

theorem length_chars (x : Scientific) : x.chars.length = x.digits.length := List.length_map _

inductive IsReduced : Scientific → Prop
  | zero : IsReduced ⟨[0], 1⟩
  | positive {x} : (∀ c ∈ x.chars, c.isDigit = true) → x.chars ≠ [] → x.chars.head? ≠ some '0' →
      x.chars.getLast? ≠ some '0' → IsReduced x

theorem ofPoint_decimal {cs : List Char} (hcs : ∀ c ∈ cs, c.isDigit = true) (hne : cs ≠ [])
    (hhead : cs.head? ≠ some '0') (k : Int) : ∃ n,
      cs = (ofPoint (decimal cs) k).chars ++ List.replicate n '0' ∧
        (ofPoint (decimal cs) k).chars.getLast? ≠ some '0' ∧
          (ofPoint (decimal cs) k).point = k + cs.length := by
  have hlist : digitList (decimal cs) = cs.map digitValue :=
    congrArg (List.map digitValue) (Json.toDigits_decimal hcs hne fun h => absurd h hhead)
  obtain ⟨ts, n, heq, hlast, hts⟩ := exists_significant hcs
  rw [ofPoint, chars, hlist, hts, List.length_map]
  exact ⟨n, heq, hlast, rfl⟩

theorem isReduced_ofPoint {c : Nat} (hc : 0 < c) (k : Int) : (ofPoint c k).IsReduced := by
  have hhead := head?_toDigits hc
  obtain ⟨n, heq, hlast, -⟩ := ofPoint_decimal (isDigit_toDigits c) Nat.toDigits_ne_nil hhead k
  rw [decimal_toDigits] at heq hlast
  have hne : (ofPoint c k).chars ≠ [] := by
    intro hnil
    rw [hnil, List.nil_append] at heq
    rw [heq] at hhead
    cases n with
    | zero => exact Nat.toDigits_ne_nil heq
    | succ n => exact hhead rfl
  refine .positive (fun d hd => isDigit_toDigits c d ?_) hne ?_ hlast
  · rw [heq]
    exact List.mem_append_left _ hd
  · rw [heq, List.head?_append_of_ne_nil _ hne] at hhead
    exact hhead

end Scientific

structure Parts where
  integer : List Char
  fraction : List Char
  power : List Char

namespace Parts

open Json.Reader (Stops)

def chars (p : Parts) : List Char :=
  p.integer ++ (if p.fraction = [] then [] else '.' :: p.fraction) ++ p.power

theorem chars_pointed {f : List Char} (hf : f ≠ []) (i e : List Char) :
    (⟨i, f, e⟩ : Parts).chars = i ++ '.' :: f ++ e := by
  rw [chars, if_neg hf]

structure Apart (p : Parts) : Prop where
  isDigit_integer : ∀ c ∈ p.integer, c.isDigit = true
  isDigit_fraction : ∀ c ∈ p.fraction, c.isDigit = true
  stops : Stops p.power
  noPoint : p.power.head? ≠ some '.'

theorem eq_of_digits {ds es r s : List Char} (hds : ∀ c ∈ ds, c.isDigit = true)
    (hes : ∀ c ∈ es, c.isDigit = true) (hr : Stops r) (hs : Stops s) (h : ds ++ r = es ++ s) :
    ds = es ∧ r = s := by
  have hrest : r = s := by
    rw [← Json.Reader.dropWhile_digits hds hr, h, Json.Reader.dropWhile_digits hes hs]
  subst hrest
  exact ⟨List.append_cancel_right h, rfl⟩

theorem stops_fraction {f p : List Char} (hp : Stops p) :
    Stops ((if f = [] then [] else '.' :: f) ++ p) := by
  split
  · exact hp
  · rintro c ⟨⟩
    rfl

theorem Apart.inj {p q : Parts} (hp : p.Apart) (hq : q.Apart) (h : p.chars = q.chars) : p = q := by
  obtain ⟨i, f, e⟩ := p
  obtain ⟨j, g, d⟩ := q
  rw [chars, chars, List.append_assoc, List.append_assoc] at h
  obtain ⟨rfl, hrest⟩ := eq_of_digits hp.isDigit_integer hq.isDigit_integer
    (stops_fraction hp.stops) (stops_fraction hq.stops) h
  dsimp only at hrest
  split at hrest <;> split at hrest
  · next hf hg =>
    subst hf hg
    exact congrArg _ hrest
  · next hf hg =>
    have he : e = '.' :: (g ++ d) := hrest
    exact absurd (congrArg List.head? he) hp.noPoint
  · next hf hg =>
    have hd : '.' :: (f ++ e) = d := hrest
    exact absurd (congrArg List.head? hd.symm) hq.noPoint
  · obtain ⟨rfl, rfl⟩ := eq_of_digits hp.isDigit_fraction hq.isDigit_fraction hp.stops hq.stops
      (List.cons.inj hrest).2
    rfl

/-- The form in which numbers are written: with a point if they are at least a hundred thousandth
and below ten to the sixteenth, and with an exponent otherwise. -/
inductive IsNormal : Parts → Prop
  | pointed {i f} : f = ['0'] ∨ f ≠ [] ∧ f.getLast? ≠ some '0' → i.length ≤ 16 →
      (i = ['0'] → (f.takeWhile (· == '0')).length ≤ 4) → IsNormal ⟨i, f, []⟩
  | large {d f ds} : d ≠ '0' → f.getLast? ≠ some '0' → ds.head? ≠ some '0' →
      16 ≤ decimal ds → IsNormal ⟨[d], f, 'e' :: '+' :: ds⟩
  | small {d f ds} : d ≠ '0' → f.getLast? ≠ some '0' → ds.head? ≠ some '0' →
      6 ≤ decimal ds → IsNormal ⟨[d], f, 'e' :: '-' :: ds⟩

end Parts

namespace Scientific

def pointed (x : Scientific) : Parts :=
  if x.point ≤ 0 then ⟨['0'], List.replicate (-x.point).toNat '0' ++ x.chars, []⟩
  else if x.chars.length ≤ x.point.toNat then
    ⟨x.chars ++ List.replicate (x.point.toNat - x.chars.length) '0', ['0'], []⟩
  else ⟨x.chars.take x.point.toNat, x.chars.drop x.point.toNat, []⟩

def raised (x : Scientific) : Parts :=
  ⟨x.chars.take 1, x.chars.drop 1, 'e' :: (if x.point - 1 < 0 then '-' else '+') ::
    Nat.toDigits 10 (x.point - 1).natAbs⟩

def parts (style : Style) (x : Scientific) : Parts :=
  if style.least.all (· ≤ x.point - 1) && style.limit.all (x.point - 1 < ·) then x.pointed
  else x.raised

theorem IsReduced.isDigit {x : Scientific} (h : x.IsReduced) : ∀ c ∈ x.chars, c.isDigit = true := by
  cases h with
  | zero => exact List.forall_mem_singleton.2 rfl
  | positive hdigits _ _ _ => exact hdigits

theorem IsReduced.chars_ne_nil {x : Scientific} (h : x.IsReduced) : x.chars ≠ [] := by
  cases h with
  | zero => exact List.cons_ne_nil _ _
  | positive _ hne _ _ => exact hne

section

variable {x : Scientific} (hne : x.chars ≠ [])

theorem toList_digitText (ds : List Nat) : (digitText ds).toList = digitChars ds :=
  String.toList_ofList

theorem toList_zeros (n : Nat) : (zeros n).toList = List.replicate n '0' := String.toList_ofList

include hne

theorem toList_positional : x.positional.toList = x.pointed.chars := by
  rw [positional, pointed]
  split
  · rw [Parts.chars_pointed (List.append_ne_nil_of_right_ne_nil _ hne), String.toList_append,
      String.toList_append, toList_zeros, toList_digitText, List.append_nil]
    rfl
  · dsimp only
    rw [length_chars]
    split
    · rw [Parts.chars_pointed (List.cons_ne_nil _ _), String.toList_append, String.toList_append,
        toList_zeros, toList_digitText, List.append_nil]
      rfl
    · next hlt =>
      have hdrop : x.chars.drop x.point.toNat ≠ [] := by
        rw [Ne, List.drop_eq_nil_iff, length_chars]
        exact hlt
      rw [Parts.chars_pointed hdrop, String.toList_append, String.toList_append, toList_digitText,
        toList_digitText, List.append_nil, List.append_assoc, chars, digitChars, digitChars,
        digitChars, List.map_take, List.map_drop]
      rfl

omit hne in
theorem toList_exponential : x.exponential.toList = x.raised.chars := by
  have hsign : (if x.point - 1 < 0 then "-" else "+").toList =
      [if x.point - 1 < 0 then '-' else '+'] := by
    split <;> rfl
  have hnumber : (toString (x.point - 1).natAbs).toList = Nat.toDigits 10 (x.point - 1).natAbs := by
    rw [Nat.toString_eq_ofList_toDigits, String.toList_ofList]
  have hfraction : (if x.digits.length ≤ 1 then "" else "." ++ digitText (x.digits.drop 1)).toList =
      if x.chars.drop 1 = [] then [] else '.' :: x.chars.drop 1 := by
    have hnil : x.chars.drop 1 = [] ↔ x.digits.length ≤ 1 := by
      rw [List.drop_eq_nil_iff, length_chars]
    by_cases hle : x.digits.length ≤ 1
    · rw [if_pos hle, if_pos (hnil.2 hle)]
      rfl
    · rw [if_neg hle, if_neg (mt hnil.1 hle), String.toList_append, toList_digitText, chars,
        digitChars, digitChars, List.map_drop]
      rfl
  rw [exponential, raised, Parts.chars]
  dsimp only
  rw [String.toList_append, String.toList_append, String.toList_append, String.toList_append, hsign,
    hnumber, hfraction, toList_digitText, chars, digitChars, digitChars, List.map_take]
  simp

theorem toList_text (style : Style) : (x.text style).toList = (x.parts style).chars := by
  rw [text, parts]
  split
  · exact toList_positional hne
  · exact toList_exponential

end

theorem apart_parts {x : Scientific} (hx : ∀ c ∈ x.chars, c.isDigit = true) (style : Style) :
    (x.parts style).Apart := by
  have hzero (n : Nat) : ∀ c ∈ List.replicate n '0', c.isDigit = true :=
    fun c hc => List.eq_of_mem_replicate hc ▸ rfl
  have hsingle : ∀ c ∈ ['0'], c.isDigit = true := List.forall_mem_singleton.2 rfl
  have hnone : Json.Reader.Stops [] := Json.Reader.delimits_nil.stops
  have htake (n : Nat) : ∀ c ∈ x.chars.take n, c.isDigit = true :=
    fun c hc => hx c (List.mem_of_mem_take hc)
  have hdrop (n : Nat) : ∀ c ∈ x.chars.drop n, c.isDigit = true :=
    fun c hc => hx c (List.mem_of_mem_drop hc)
  rw [parts]
  split
  · rw [pointed]
    split
    · exact ⟨hsingle, List.forall_mem_append.2 ⟨hzero _, hx⟩, hnone, nofun⟩
    · split
      · exact ⟨List.forall_mem_append.2 ⟨hx, hzero _⟩, hsingle, hnone, nofun⟩
      · exact ⟨htake _, hdrop _, hnone, nofun⟩
  · refine ⟨htake _, hdrop _, ?_, ?_⟩
    · rintro c ⟨⟩
      rfl
    · exact fun h => absurd (Option.some.inj h) (by decide)

theorem takeWhile_zeros {cs : List Char} (h : cs.head? ≠ some '0') (n : Nat) :
    (List.replicate n '0' ++ cs).takeWhile (· == '0') = List.replicate n '0' := by
  have hcs : cs.takeWhile (· == '0') = [] := by
    cases cs with
    | nil => rfl
    | cons c cs =>
      exact List.takeWhile_cons_of_neg fun hc => h (congrArg some (of_decide_eq_true hc))
  rw [List.takeWhile_append_of_pos fun c hc => beq_iff_eq.2 (List.eq_of_mem_replicate hc), hcs,
    List.append_nil]

theorem getLast?_drop_ne {cs : List Char} (h : cs.getLast? ≠ some '0') (n : Nat) :
    (cs.drop n).getLast? ≠ some '0' := by
  rw [List.getLast?_drop]
  split
  · exact nofun
  · exact h

theorem pointed_iff (x : Scientific) : (Json.Number.style.least.all (· ≤ x.point - 1) &&
    Json.Number.style.limit.all (x.point - 1 < ·)) = true ↔
      -5 ≤ x.point - 1 ∧ x.point - 1 < 16 := by
  simp [Json.Number.style]

theorem IsReduced.isNormal {x : Scientific} (h : x.IsReduced) :
    (x.parts Json.Number.style).IsNormal := by
  cases h with
  | zero => exact .pointed (.inl rfl) (by decide) fun _ => by decide
  | positive hdigits hne hhead hlast =>
    rw [parts]
    split
    · next hin =>
      obtain ⟨hleast, hlimit⟩ := x.pointed_iff.1 hin
      rw [pointed]
      split
      · next hpoint =>
        have hfraction :=
          List.append_ne_nil_of_right_ne_nil (List.replicate (-x.point).toNat '0') hne
        refine .pointed (.inr ⟨hfraction, ?_⟩) (by decide) fun _ => ?_
        · rwa [List.getLast?_append_of_ne_nil _ hne]
        · rw [takeWhile_zeros hhead, List.length_replicate]
          omega
      · next hpoint =>
        split
        · next hle =>
          refine .pointed (.inl rfl) ?_ fun _ => by decide
          rw [List.length_append, List.length_replicate]
          omega
        · next hlt =>
          refine .pointed (.inr ⟨mt List.drop_eq_nil_iff.1 hlt, getLast?_drop_ne hlast _⟩) ?_ ?_
          · rw [List.length_take]
            omega
          · intro hzero
            have hfirst := congrArg List.head? hzero
            rw [List.head?_take, if_neg (by omega)] at hfirst
            exact absurd hfirst hhead
    · next hout =>
      rw [pointed_iff] at hout
      have hrest := getLast?_drop_ne hlast 1
      obtain ⟨d, ds, hcons⟩ := List.exists_cons_of_ne_nil hne
      rw [hcons] at hrest hhead
      rw [raised, hcons]
      have hd : d ≠ '0' := fun hzero => hhead (congrArg some hzero)
      have hpower : (x.point - 1).natAbs ≠ 0 := by omega
      have hdigits := head?_toDigits (Nat.pos_of_ne_zero hpower)
      split
      · refine .small hd hrest hdigits ?_
        rw [decimal_toDigits]
        omega
      · refine .large hd hrest hdigits ?_
        rw [decimal_toDigits]
        omega

theorem isReduced_shortest (tie : Tie) (x : Binary64) : (x.shortest tie).IsReduced := by
  by_cases hm : x.mantissa = 0
  · have hzero : x.shortest tie = ⟨[0], 1⟩ := if_pos (beq_iff_eq.2 hm)
    exact hzero ▸ .zero
  · rw [Binary64.shortest_eq tie hm]
    cases hfound : (List.range 17).findSome? (x.candidate? tie) with
    | none => exact .zero
    | some y =>
      obtain ⟨i, -, hy⟩ := List.exists_of_findSome?_eq_some hfound
      obtain ⟨c, hc, rfl⟩ := Option.map_eq_some_iff.1 hy
      have hpos := (Binary64.covers_of_gridPoint? hc).pos hm
      refine isReduced_ofPoint (Nat.pos_of_ne_zero fun hzero => ?_) _
      rw [hzero] at hpos
      simp at hpos

end Scientific

end Decimal

end Phrasebook
