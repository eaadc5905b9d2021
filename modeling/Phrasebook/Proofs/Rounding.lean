import Mathlib.Algebra.Order.Field.Power
import Mathlib.Data.Rat.Cast.Order
import Mathlib.Tactic.FieldSimp
import Mathlib.Tactic.Linarith
import Mathlib.Tactic.Positivity
import Mathlib.Tactic.Ring
import Phrasebook.Decimal.Binary64
import Phrasebook.Decimal.Shortest

/-!
Rounding to binary numbers. A number covers the interval of those that are nearer to it than to any
other, or as near where its mantissa is even, and a quotient becomes a number that covers it.
-/

namespace Phrasebook.Decimal

theorem zpow_eq_div (b : ℚ) (e : ℤ) : b ^ e = b ^ e.toNat / b ^ (-e).toNat := by
  obtain ⟨n, rfl | rfl⟩ := e.eq_nat_or_neg <;> simp

namespace Binary64

def value (x : Binary64) : ℚ := x.mantissa * 2 ^ x.exponent

/-- The bounds count where the mantissa is even. -/
def Covers (x : Binary64) (q : ℚ) : Prop :=
  if x.mantissa % 2 = 0 then
    x.lowerBound * 2 ^ (x.exponent - 2) ≤ q ∧ q ≤ x.upperBound * 2 ^ (x.exponent - 2)
  else x.lowerBound * 2 ^ (x.exponent - 2) < q ∧ q < x.upperBound * 2 ^ (x.exponent - 2)

theorem value_eq_ratio (x : Binary64) : x.value = x.ratio.1 / x.ratio.2 := by
  rw [value, zpow_eq_div, ratio]
  push_cast [Nat.pow_eq]
  ring

theorem ratio_pos (x : Binary64) : 0 < x.ratio.2 := Nat.pow_pos Nat.two_pos

theorem admits_iff {x : Binary64} {c : Nat} {k : ℤ} :
    x.admits c k = true ↔ x.Covers (c * 10 ^ k) := by
  have hscale : (0 : ℚ) < 10 ^ (-k).toNat * 2 ^ (-(x.exponent - 2)).toNat := by positivity
  have hbound (l : Nat) : (l * 2 ^ (x.exponent - 2) : ℚ) *
      (10 ^ (-k).toNat * 2 ^ (-(x.exponent - 2)).toNat) =
        (l * (Nat.pow 2 (x.exponent - 2).toNat * Nat.pow 10 (-k).toNat) : Nat) := by
    rw [zpow_eq_div]
    push_cast [Nat.pow_eq]
    field_simp
  have hpoint : (c * 10 ^ k : ℚ) * (10 ^ (-k).toNat * 2 ^ (-(x.exponent - 2)).toNat) =
      (c * Nat.pow 10 k.toNat * Nat.pow 2 (-(x.exponent - 2)).toNat : Nat) := by
    rw [zpow_eq_div]
    push_cast [Nat.pow_eq]
    field_simp
  rw [admits, Covers]
  split
  · rw [Bool.and_eq_true_iff, decide_eq_true_iff, decide_eq_true_iff, ← @Nat.cast_le ℚ,
      ← @Nat.cast_le ℚ, ← hbound, ← hbound, ← hpoint, mul_le_mul_iff_left₀ hscale,
      mul_le_mul_iff_left₀ hscale]
  · rw [Bool.and_eq_true_iff, decide_eq_true_iff, decide_eq_true_iff, ← @Nat.cast_lt ℚ,
      ← @Nat.cast_lt ℚ, ← hbound, ← hbound, ← hpoint, mul_lt_mul_iff_left₀ hscale,
      mul_lt_mul_iff_left₀ hscale]

theorem zpow_eq_quarters (e : ℤ) : (2 : ℚ) ^ e = 4 * 2 ^ (e - 2) := by
  rw [zpow_sub₀ two_ne_zero]
  norm_num
  ring

theorem cast_upperBound (x : Binary64) : (x.upperBound : ℚ) = 4 * x.mantissa + 2 := by
  rw [upperBound]
  push_cast
  ring

theorem cast_lowerBound_of_odd {x : Binary64} (h : x.mantissa % 2 = 1) :
    (x.lowerBound : ℚ) = 4 * x.mantissa - 2 := by
  have hne : x.mantissa ≠ Nat.pow 2 52 := by
    intro heq
    rw [heq] at h
    exact absurd h (by decide)
  rw [lowerBound, if_neg fun h => hne h.1, Nat.cast_sub (by omega)]
  push_cast
  ring

theorem Covers.bounds {x : Binary64} {q : ℚ} (h : x.Covers q) :
    x.lowerBound * 2 ^ (x.exponent - 2) ≤ q ∧ q ≤ x.upperBound * 2 ^ (x.exponent - 2) := by
  unfold Covers at h
  split at h
  · exact h
  · exact ⟨h.1.le, h.2.le⟩

theorem Covers.pos {x : Binary64} {q : ℚ} (h : x.Covers q) (hm : x.mantissa ≠ 0) : 0 < q := by
  have hlower : 0 < x.lowerBound := by
    unfold lowerBound
    split <;> omega
  have hlower' : (0 : ℚ) < x.lowerBound := by exact_mod_cast hlower
  exact lt_of_lt_of_le (by positivity) h.bounds.1

theorem Covers.near {x : Binary64} {q : ℚ} (h : x.Covers q) :
    x.value - 2 ^ x.exponent / 2 ≤ q ∧ q ≤ x.value + 2 ^ x.exponent / 2 := by
  have hpos : (0 : ℚ) < 2 ^ (x.exponent - 2) := by positivity
  have hlower : 4 * (x.mantissa : ℚ) - 2 ≤ x.lowerBound := by
    have hle : 4 * x.mantissa ≤ x.lowerBound + 2 := by
      unfold lowerBound
      split <;> omega
    have : (4 * x.mantissa : ℚ) ≤ x.lowerBound + 2 := by exact_mod_cast hle
    linarith
  have hbounds := h.bounds
  rw [cast_upperBound] at hbounds
  rw [value, zpow_eq_quarters]
  constructor <;> nlinarith

section

variable (n : Nat) {d : Nat} (hd : 0 < d)

include hd

theorem roundQuotient_near : 2 * (roundQuotient n d * d) ≤ 2 * n + d ∧
    2 * n ≤ 2 * (roundQuotient n d * d) + d := by
  have hmod := Nat.mod_lt n hd
  have hdiv := Nat.div_add_mod n d
  have hcomm := Nat.mul_comm d (n / d)
  unfold roundQuotient
  dsimp only
  split
  · constructor <;> omega
  · split
    · rw [Nat.add_mul]
      constructor <;> omega
    · rcases Nat.mod_two_eq_zero_or_one (n / d) with hparity | hparity <;>
        rw [hparity, Nat.add_mul] <;> constructor <;> omega

theorem roundQuotient_odd (h : roundQuotient n d % 2 = 1) :
    2 * (roundQuotient n d * d) < 2 * n + d ∧ 2 * n < 2 * (roundQuotient n d * d) + d := by
  have hmod := Nat.mod_lt n hd
  have hdiv := Nat.div_add_mod n d
  have hcomm := Nat.mul_comm d (n / d)
  unfold roundQuotient at h ⊢
  dsimp only at h ⊢
  split at h
  · next hlt =>
    rw [if_pos hlt]
    constructor <;> omega
  · next hlt =>
    rw [if_neg hlt]
    split at h
    · next hgt =>
      rw [if_pos hgt, Nat.add_mul]
      constructor <;> omega
    · omega

omit hd in
theorem le_roundQuotient : n / d ≤ roundQuotient n d := by
  unfold roundQuotient
  dsimp only
  split
  · exact Nat.le_refl _
  · split <;> omega

end

section

variable {n d : Nat} (hn : 0 < n) (hd : 0 < d)

theorem scaled_pos (hd : 0 < d) (n : Nat) (e : ℤ) : 0 < (scaled n d e).2 :=
  Nat.mul_pos hd (Nat.pow_pos Nat.two_pos)

theorem scaled_div (n d : Nat) (e : ℤ) :
    ((scaled n d e).1 : ℚ) / (scaled n d e).2 = n / d * 2 ^ (-e) := by
  rw [zpow_eq_div, neg_neg, scaled]
  push_cast [Nat.pow_eq]
  rw [mul_div_mul_comm]

include hn hd

/-- With one step less than the difference of the sizes, 53 bits are not missed. -/
theorem lt_scaled_log : (2 : ℚ) ^ (52 : ℤ) < n / d * 2 ^ (-((n.log2 : ℤ) - d.log2 - 52 - 1)) := by
  have hlow : (2 : ℚ) ^ (n.log2 : ℤ) ≤ n := by
    rw [zpow_natCast]
    exact_mod_cast Nat.log2_self_le (Nat.ne_of_gt hn)
  have hhigh : (d : ℚ) < 2 ^ ((d.log2 : ℤ) + 1) := by
    have : d < 2 ^ (d.log2 + 1) := Nat.lt_log2_self
    exact_mod_cast this
  have hdpos : (0 : ℚ) < d := by exact_mod_cast hd
  have hsplit : (2 : ℚ) ^ (-((n.log2 : ℤ) - d.log2 - 52 - 1)) =
      2 ^ (52 : ℤ) * 2 ^ ((d.log2 : ℤ) + 1) / 2 ^ (n.log2 : ℤ) := by
    rw [← zpow_add₀ two_ne_zero, ← zpow_sub₀ two_ne_zero]
    congr 1
    ring
  rw [hsplit]
  have hn' : (0 : ℚ) < 2 ^ (n.log2 : ℤ) := by positivity
  have h52 : (0 : ℚ) < 2 ^ (52 : ℤ) := by positivity
  rw [div_mul_div_comm, lt_div_iff₀ (by positivity)]
  nlinarith [mul_lt_mul_of_pos_left hhigh hn', mul_le_mul_of_nonneg_right hlow
    (show (0 : ℚ) ≤ 2 ^ ((d.log2 : ℤ) + 1) by positivity)]

/-- At its unit a quotient has 53 bits, unless the unit is the least one. -/
theorem unitExponent_spec : -1074 ≤ unitExponent n d ∧
    (unitExponent n d = -1074 ∨ 2 ^ (52 : ℤ) ≤ (n / d : ℚ) * 2 ^ (-unitExponent n d)) := by
  unfold unitExponent
  dsimp only
  refine ⟨le_max_right _ _, ?_⟩
  rcases max_choice (if (scaled n d (n.log2 - d.log2 - 52)).1 /
      (scaled n d (n.log2 - d.log2 - 52)).2 < Nat.pow 2 52 then
        (n.log2 : ℤ) - d.log2 - 52 - 1 else n.log2 - d.log2 - 52) (-1074) with h | h
  · rw [h]
    refine .inr ?_
    split
    · exact (lt_scaled_log hn hd).le
    · next hle =>
      rw [← scaled_div, le_div_iff₀ (by exact_mod_cast scaled_pos hd n _)]
      rw [Nat.div_lt_iff_lt_mul (scaled_pos hd n _), Nat.not_lt] at hle
      exact_mod_cast hle
  · exact .inl h

end

def inUnits (n d : Nat) : ℚ := n / d * 2 ^ (-unitExponent n d)

def unitQuotient (n d : Nat) : Nat :=
  roundQuotient (scaled n d (unitExponent n d)).1 (scaled n d (unitExponent n d)).2

theorem inUnits_nonneg (n d : Nat) : 0 ≤ inUnits n d := by
  rw [inUnits]
  positivity

theorem inUnits_mul (n d : Nat) : inUnits n d * 2 ^ unitExponent n d = n / d := by
  rw [inUnits, mul_assoc, ← zpow_add₀ two_ne_zero, neg_add_cancel, zpow_zero, mul_one]

section

variable {n d : Nat}

theorem ofRatio_cases {x : Binary64} (hn : 0 < n) (h : ofRatio n d = some x) :
    unitQuotient n d = 2 ^ 53 ∧ x = ⟨2 ^ 52, unitExponent n d + 1⟩ ∨
      x = ⟨unitQuotient n d, unitExponent n d⟩ := by
  rw [ofRatio, if_neg (Nat.ne_of_gt hn)] at h
  dsimp only at h
  split at h
  · next hm =>
    obtain ⟨-, hx⟩ := Option.ite_none_right_eq_some.1 h
    exact .inl ⟨hm, (Option.some.inj hx).symm⟩
  · obtain ⟨-, hx⟩ := Option.ite_none_right_eq_some.1 h
    exact .inr (Option.some.inj hx).symm

variable (hd : 0 < d)

include hd

theorem unitQuotient_near :
    (unitQuotient n d : ℚ) - 1 / 2 ≤ inUnits n d ∧ inUnits n d ≤ unitQuotient n d + 1 / 2 := by
  have hpos := scaled_pos hd n (unitExponent n d)
  have hpos' : (0 : ℚ) < (scaled n d (unitExponent n d)).2 := by exact_mod_cast hpos
  obtain ⟨hlow, hhigh⟩ := roundQuotient_near (scaled n d (unitExponent n d)).1 hpos
  rw [← unitQuotient, ← @Nat.cast_le ℚ] at hlow hhigh
  push_cast at hlow hhigh
  rw [inUnits, ← scaled_div, le_div_iff₀ hpos', div_le_iff₀ hpos']
  constructor <;> linarith

theorem unitQuotient_odd (h : unitQuotient n d % 2 = 1) :
    (unitQuotient n d : ℚ) - 1 / 2 < inUnits n d ∧ inUnits n d < unitQuotient n d + 1 / 2 := by
  have hpos := scaled_pos hd n (unitExponent n d)
  have hpos' : (0 : ℚ) < (scaled n d (unitExponent n d)).2 := by exact_mod_cast hpos
  obtain ⟨hlow, hhigh⟩ := roundQuotient_odd (scaled n d (unitExponent n d)).1 hpos h
  rw [← unitQuotient, ← @Nat.cast_lt ℚ] at hlow hhigh
  push_cast at hlow hhigh
  rw [inUnits, ← scaled_div, lt_div_iff₀ hpos', div_lt_iff₀ hpos']
  constructor <;> linarith

theorem le_unitQuotient {k : Nat} (h : k ≤ inUnits n d) : k ≤ unitQuotient n d := by
  have hpos := scaled_pos hd n (unitExponent n d)
  have hpos' : (0 : ℚ) < (scaled n d (unitExponent n d)).2 := by exact_mod_cast hpos
  rw [inUnits, ← scaled_div, le_div_iff₀ hpos'] at h
  refine Nat.le_trans ((Nat.le_div_iff_mul_le hpos).2 ?_) (le_roundQuotient _)
  exact_mod_cast h

theorem lowerBound_le (hn : 0 < n) :
    ((⟨unitQuotient n d, unitExponent n d⟩ : Binary64).lowerBound : ℚ) ≤ 4 * inUnits n d := by
  obtain ⟨hlow, hhigh⟩ := unitQuotient_near (n := n) hd
  rw [lowerBound]
  dsimp only
  split
  · next h =>
    have hunit := (unitExponent_spec hn hd).2.resolve_left h.2
    rw [← inUnits] at hunit
    rw [h.1]
    norm_num at hunit ⊢
    linarith
  · rcases Nat.eq_zero_or_pos (unitQuotient n d) with hzero | hpos
    · rw [hzero, Nat.mul_zero, Nat.zero_sub, Nat.cast_zero]
      exact mul_nonneg (by norm_num) (inUnits_nonneg n d)
    · rw [Nat.cast_sub (by omega)]
      push_cast
      linarith

omit hd in
theorem covers_carry {e : ℤ} (he : -1074 ≤ e) {q : ℚ} (hlow : 2 ^ 53 - 1 / 2 ≤ q)
    (hhigh : q ≤ 2 ^ 53 + 1 / 2) : (⟨2 ^ 52, e + 1⟩ : Binary64).Covers (q * 2 ^ e) := by
  have hpos : (0 : ℚ) < 2 ^ (e - 2) := by positivity
  have hstep : (2 : ℚ) ^ (e + 1 - 2) = 2 * 2 ^ (e - 2) := by
    rw [add_sub_right_comm, zpow_add_one₀ two_ne_zero]
    ring
  rw [Covers, if_pos (by norm_num), lowerBound, upperBound, if_pos ⟨rfl, by dsimp only; omega⟩]
  dsimp only
  rw [hstep, zpow_eq_quarters e]
  norm_num at hlow hhigh ⊢
  constructor <;> nlinarith

/-- A quotient becomes a number that covers it. -/
theorem covers_of_ofRatio (hn : 0 < n) {x : Binary64} (h : ofRatio n d = some x) :
    x.Covers (n / d) := by
  obtain ⟨hlow, hhigh⟩ := unitQuotient_near (n := n) hd
  rw [← inUnits_mul n d]
  rcases ofRatio_cases hn h with ⟨hm, rfl⟩ | rfl
  · rw [hm] at hlow hhigh
    push_cast at hlow hhigh
    exact covers_carry (unitExponent_spec hn hd).1 hlow hhigh
  · have hpos : (0 : ℚ) < 2 ^ (unitExponent n d - 2) := by positivity
    rw [Covers, cast_upperBound, zpow_eq_quarters (unitExponent n d)]
    dsimp only
    split
    · have hlower := lowerBound_le hd hn
      constructor <;> nlinarith
    · next heven =>
      have hodd : unitQuotient n d % 2 = 1 := Nat.mod_two_ne_zero.1 heven
      obtain ⟨hlow, hhigh⟩ := unitQuotient_odd hd hodd
      rw [cast_lowerBound_of_odd hodd]
      dsimp only
      constructor <;> nlinarith

structure Rounds (q : ℚ) (x : Binary64) : Prop where
  covers : x.Covers q
  least : -1074 ≤ x.exponent
  full : x.exponent = -1074 ∨ 2 ^ 52 ≤ x.mantissa

theorem rounds_of_ofRatio (hn : 0 < n) {x : Binary64} (h : ofRatio n d = some x) :
    Rounds (n / d) x := by
  obtain ⟨hleast, hunit⟩ := unitExponent_spec hn hd
  have hcovers := covers_of_ofRatio hd hn h
  rcases ofRatio_cases hn h with ⟨-, rfl⟩ | rfl
  · exact ⟨hcovers, by dsimp only; omega, .inr (Nat.le_refl _)⟩
  · refine ⟨hcovers, hleast, hunit.imp_right fun hunit => le_unitQuotient hd ?_⟩
    exact_mod_cast hunit

end

theorem Rounds.full_of_le {x : Binary64} {q : ℚ} (h : Rounds q x) (hq : 2 ^ (-1022 : ℤ) ≤ q) :
    2 ^ 52 ≤ x.mantissa := by
  refine h.full.elim (fun hleast => ?_) id
  obtain ⟨-, hnear⟩ := h.covers.near
  have hsplit : (2 : ℚ) ^ (-1022 : ℤ) = 2 ^ 52 * 2 ^ (-1074 : ℤ) := by
    rw [← zpow_natCast, ← zpow_add₀ two_ne_zero]
    rfl
  have hpos : (0 : ℚ) < 2 ^ (-1074 : ℤ) := by positivity
  rw [value, hleast] at hnear
  rw [hsplit] at hq
  have hle : (2 ^ 52 : ℚ) ≤ x.mantissa + 1 / 2 := by
    refine le_of_mul_le_mul_right ?_ hpos
    linarith
  have hlt : (2 ^ 52 : ℚ) < x.mantissa + 1 := by linarith
  exact Nat.lt_succ_iff.1 (by exact_mod_cast hlt)

theorem value_of_ofRatio {n d : Nat} (hn : 0 < n) {x : Binary64} (h : ofRatio n d = some x) :
    x.value = unitQuotient n d * 2 ^ unitExponent n d := by
  rcases ofRatio_cases hn h with ⟨hm, rfl⟩ | rfl
  · rw [value, hm, zpow_add_one₀ two_ne_zero]
    push_cast
    ring
  · rfl

theorem unitExponent_nonpos {n : Nat} (hn : 0 < n) (hlt : n < 2 ^ 53) : unitExponent n 1 ≤ 0 := by
  have hlog : n.log2 < 53 := (Nat.log2_lt (Nat.ne_of_gt hn)).2 hlt
  have hone : Nat.log2 1 = 0 := by decide
  unfold unitExponent
  dsimp only
  rw [hone]
  split <;> omega

theorem unitQuotient_one {n : Nat} (h : unitExponent n 1 ≤ 0) :
    unitQuotient n 1 = n * 2 ^ (-unitExponent n 1).toNat := by
  have hscaled : (scaled n 1 (unitExponent n 1)).2 = 1 := by
    rw [scaled, Int.toNat_of_nonpos h]
  rw [unitQuotient, hscaled, roundQuotient, Nat.div_one, Nat.mod_one]
  exact if_pos Nat.one_pos

theorem value_of_ofNat {n : Nat} (hn : 0 < n) (hlt : n < 2 ^ 53) {x : Binary64}
    (h : ofNat n = some x) : x.value = n := by
  have hle := unitExponent_nonpos hn hlt
  rw [value_of_ofRatio hn h, unitQuotient_one hle, zpow_eq_div, Int.toNat_of_nonpos hle]
  push_cast
  rw [pow_zero, mul_assoc, mul_one_div_cancel (by positivity), mul_one]

theorem ratio_fst_pos {x : Binary64} (h : 0 < x.value) : 0 < x.ratio.1 := by
  rw [value_eq_ratio] at h
  exact Nat.pos_of_ne_zero fun hzero => by simp [hzero] at h

section

variable {x y z : Binary64} (hx : 0 < x.value) (hy : 0 < y.value)

include hx hy

theorem rounds_of_mul (h : x.mul y = some z) : Rounds (x.value * y.value) z := by
  have hrounds := rounds_of_ofRatio (Nat.mul_pos x.ratio_pos y.ratio_pos)
    (Nat.mul_pos (ratio_fst_pos hx) (ratio_fst_pos hy)) h
  rw [Nat.cast_mul, Nat.cast_mul, ← div_mul_div_comm, ← value_eq_ratio, ← value_eq_ratio] at hrounds
  exact hrounds

theorem rounds_of_div (h : x.div y = some z) : Rounds (x.value / y.value) z := by
  obtain ⟨-, h⟩ := Option.ite_none_left_eq_some.1 h
  have hrounds := rounds_of_ofRatio (Nat.mul_pos x.ratio_pos (ratio_fst_pos hy))
    (Nat.mul_pos (ratio_fst_pos hx) y.ratio_pos) h
  rw [Nat.cast_mul, Nat.cast_mul, ← div_div_div_eq, ← value_eq_ratio, ← value_eq_ratio] at hrounds
  exact hrounds

end

end Binary64

end Phrasebook.Decimal
