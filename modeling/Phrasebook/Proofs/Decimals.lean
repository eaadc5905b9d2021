import Phrasebook.Proofs.Literal
import Phrasebook.Proofs.Shortest

namespace Phrasebook.Json

open Decimal (Binary64 Scientific Tie)

section

variable {c : Char} (h : c.isDigit = true)

include h

theorem toNat_of_isDigit : 48 ≤ c.toNat ∧ c.toNat ≤ 57 := Char.isDigit_iff_toNat.1 h

theorem digitValue_lt : Reader.digitValue c < 10 := by
  have := toNat_of_isDigit h
  unfold Reader.digitValue
  omega

theorem digitChar_digitValue : (Reader.digitValue c).digitChar = c := by
  have hbounds := toNat_of_isDigit h
  apply Char.toNat_inj.1
  rw [Nat.toNat_digitChar_of_lt_ten (digitValue_lt h), Reader.digitValue]
  omega

end

theorem decimalFrom_append (n : Nat) (ds es : List Char) :
    decimalFrom n (ds ++ es) = decimalFrom (decimalFrom n ds) es := by
  induction ds generalizing n with
  | nil => rfl
  | cons d ds ih => exact ih _

theorem decimal_pos {d : Char} {ds : List Char} (hd : d.isDigit = true) (hzero : d ≠ '0') :
    0 < decimal (d :: ds) := by
  have hle : Reader.digitValue d ≤ decimal (d :: ds) := by
    refine Nat.le_trans ?_ (le_decimalFrom _ ds)
    omega
  refine Nat.lt_of_lt_of_le (Nat.pos_of_ne_zero fun h => hzero ?_) hle
  rw [← digitChar_digitValue hd, h]
  rfl

theorem toDigits_decimal {ds : List Char} (hds : ∀ c ∈ ds, c.isDigit = true) (hne : ds ≠ [])
    (hleading : ds.head? = some '0' → ds = ['0']) : Nat.toDigits 10 (decimal ds) = ds := by
  induction ds using List.reverseRecOn with
  | nil => exact (hne rfl).elim
  | append_singleton ds d ih =>
    obtain ⟨hds, hd⟩ := List.forall_mem_append.1 hds
    replace hd := hd d List.mem_cons_self
    have hlast : Nat.toDigits 10 (Reader.digitValue d) = [d] := by
      rw [Nat.toDigits_of_lt_base (digitValue_lt hd), digitChar_digitValue hd]
    have hstep : decimal (ds ++ [d]) = decimal ds * 10 + Reader.digitValue d :=
      decimalFrom_append 0 ds [d]
    rw [hstep]
    cases ds with
    | nil =>
      have hvalue : decimal [] * 10 + Reader.digitValue d = Reader.digitValue d := Nat.zero_add _
      exact (congrArg (Nat.toDigits 10) hvalue).trans hlast
    | cons c ds =>
      have hzero : c ≠ '0' := by
        rintro rfl
        simp at hleading
      have hfront := ih hds (List.cons_ne_nil _ _) fun h => absurd (Option.some.inj h) hzero
      have hpos : 0 < decimal (c :: ds) := decimal_pos (hds c List.mem_cons_self) hzero
      rw [Nat.mul_comm, ← Nat.toDigits_append_toDigits (by decide) hpos (digitValue_lt hd),
        hfront, hlast]

namespace Number

theorem power_ratio : ∀ k < 23, (power k).any fun p => p.ratio.1 == Nat.pow 10 k * p.ratio.2 := by
  decide +kernel

theorem value_of_power {k : Nat} (hk : k < 23) {p : Binary64} (hp : power k = some p) :
    p.value = 10 ^ k := by
  have hratio := power_ratio k hk
  rw [hp, Option.any_some, beq_iff_eq] at hratio
  have hpos : (0 : ℚ) < p.ratio.2 := by exact_mod_cast p.ratio_pos
  rw [Binary64.value_eq_ratio, hratio, div_eq_iff (ne_of_gt hpos)]
  push_cast [Nat.pow_eq]
  rfl

theorem scale_zero (k : Int) : scale 0 k = some .zero := by
  change (if k < 0 then divide .zero (-k).toNat else some .zero) = _
  split
  · rw [divide]
    rfl
  · rfl

section

variable {s : Nat} {k : Int} (hs : 0 < s) (hlow : -22 ≤ k) (hhigh : k ≤ 22)

include hs hlow

theorem pow_le_mul : (2 : ℚ) ^ (-1022 : ℤ) ≤ s * 10 ^ k :=
  calc (2 : ℚ) ^ (-1022 : ℤ) ≤ 2 ^ (-88 : ℤ) := zpow_le_zpow_right₀ (by norm_num) (by norm_num)
    _ ≤ 10 ^ (-22 : ℤ) := by norm_num
    _ ≤ 10 ^ k := zpow_le_zpow_right₀ (by norm_num) hlow
    _ ≤ s * 10 ^ k := le_mul_of_one_le_left (by positivity) (by exact_mod_cast hs)

include hhigh

theorem rounds_of_scale (hlt : s < 2 ^ 53) {x : Binary64} (h : scale s k = some x) :
    Binary64.Rounds (s * 10 ^ k) x := by
  obtain ⟨y, hy, h⟩ := Option.bind_eq_some_iff.1 h
  have hvalue := Binary64.value_of_ofNat hs hlt hy
  have hypos : 0 < y.value := by
    rw [hvalue]
    exact_mod_cast hs
  have hzero : ¬y.isZero = true := by
    intro hzero
    rw [Binary64.value, of_decide_eq_true hzero] at hypos
    simp at hypos
  split at h
  · next hneg =>
    rw [divide, if_neg hzero, if_pos (by omega)] at h
    obtain ⟨p, hp, h⟩ := Option.bind_eq_some_iff.1 h
    have hpower := value_of_power (by omega) hp
    have hrounds := Binary64.rounds_of_div hypos (by rw [hpower]; positivity) h
    rw [hvalue, hpower, div_eq_mul_inv, ← zpow_natCast, Int.toNat_of_nonneg (by omega), ← zpow_neg,
      neg_neg] at hrounds
    exact hrounds
  · next hneg =>
    rw [if_pos (by omega)] at h
    obtain ⟨p, hp, h⟩ := Option.bind_eq_some_iff.1 h
    have hpower := value_of_power (by omega) hp
    have hrounds := Binary64.rounds_of_mul hypos (by rw [hpower]; positivity) h
    rw [hvalue, hpower, ← zpow_natCast, Int.toNat_of_nonneg (by omega)] at hrounds
    exact hrounds

theorem shortest_of_scale (tie : Tie) (hlt : s < 10 ^ 15) {x : Binary64} (h : scale s k = some x) :
    x.shortest tie = .ofPoint s k := by
  have hrounds := rounds_of_scale hs hlow hhigh (Nat.lt_trans hlt (by decide)) h
  exact Binary64.shortest_of_rounds tie hrounds hs hlt (hrounds.full_of_le (pow_le_mul hs hlow))

end

end Number

def Exponent.value (e : Exponent) : Int := if e.isDown then -e.size else e.size

namespace Literal

def digits (l : Literal) : List Char := l.integer ++ l.fraction

def shift (l : Literal) : Int := (l.exponent.map Exponent.value).getD 0 - l.fraction.length

/-- No more than 15 digits, and a power of ten that is exact, or one over such a power. -/
def IsShort (l : Literal) : Prop := decimal l.digits < 10 ^ 15 ∧ -22 ≤ l.shift ∧ l.shift ≤ 22

def scientific (l : Literal) : Scientific :=
  if decimal l.digits = 0 then ⟨[0], 1⟩ else .ofPoint (decimal l.digits) l.shift

variable {l : Literal}

theorem significand_of_lt (h : decimal l.digits < 10 ^ 15) :
    l.significand = (decimal l.digits, -(l.fraction.length : Int)) := by
  have hall : decimalFrom (decimal l.integer) l.fraction = decimal l.digits :=
    (decimalFrom_append 0 l.integer l.fraction).symm
  have hle : decimalFrom (decimal l.integer) l.fraction ≤ Number.largest :=
    hall ▸ Nat.le_trans (Nat.le_of_lt h) (by decide)
  have hinteger : decimalFrom 0 l.integer ≤ Number.largest :=
    Nat.le_trans (le_decimalFrom _ l.fraction) hle
  rw [significand, Number.absorb_of_le hinteger]
  dsimp only
  rw [← decimal, Number.absorb_of_le hle, hall]
  simp

theorem binary?_of_isShort (h : l.IsShort) {x : Binary64} (hx : l.binary? = some x) :
    Number.scale (decimal l.digits) l.shift = some x := by
  obtain ⟨hlt, hlow, -⟩ := h
  rw [binary?, significand_of_lt hlt] at hx
  unfold shift at hlow ⊢
  cases hexponent : l.exponent with
  | none =>
    rw [hexponent] at hx
    rw [Option.map_none, Option.getD_none, zero_sub]
    exact hx
  | some e =>
    rw [hexponent] at hx hlow
    rw [Option.map_some, Option.getD_some, Exponent.value] at hlow ⊢
    simp only [Exponent.raise?] at hx
    split at hx
    · next hsize =>
      rw [← hx]
      congr 1
      split <;> ring
    · next hsize =>
      -- only an exponent that is far below any of those given leaves a number
      obtain ⟨hnone, hx⟩ := Option.ite_none_left_eq_some.1 hx
      cases hx
      by_cases hzero : decimal l.digits = 0
      · rw [hzero]
        exact Number.scale_zero _
      · cases hdown : e.isDown with
        | false => exact absurd ⟨hzero, by rw [hdown]; rfl⟩ hnone
        | true =>
          rw [hdown, if_pos rfl] at hlow
          have : (22 : Nat) ≤ Nat.pow 2 31 - 1 := by decide
          omega

theorem shortest_of_isShort (h : l.IsShort) {x : Binary64} (hx : l.binary? = some x) :
    x.shortest .even = l.scientific := by
  have hscale := binary?_of_isShort h hx
  obtain ⟨hlt, hlow, hhigh⟩ := h
  rw [scientific]
  split
  · next hzero =>
    rw [hzero, Number.scale_zero] at hscale
    cases hscale
    rfl
  · next hpos =>
    exact Number.shortest_of_scale (Nat.pos_of_ne_zero hpos) hlow hhigh .even hlt hscale

theorem floatText_of_isShort (h : l.IsShort) {x : Binary64} (hx : l.binary? = some x) :
    Number.floatText l.negative x =
      (if l.negative then "-" else "") ++ l.scientific.text Number.style := by
  rw [Number.floatText, Binary64.text]
  exact congrArg _ (congrArg _ (shortest_of_isShort h hx))

end Literal

end Phrasebook.Json
