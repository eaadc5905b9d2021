import Phrasebook.Proofs.Rounding

/-!
Shortest decimals. The digits of a number are those of a decimal that it covers. Where no two
decimals of 15 digits are covered, any one of them that is covered is found again.
-/

namespace Phrasebook.Decimal

namespace Scientific

open Binary64 (digitList significant)

def ofPoint (c : Nat) (k : Int) : Scientific :=
  ⟨significant (digitList c), k + (digitList c).length⟩

theorem digitList_mul_ten {c : Nat} (hc : 0 < c) : digitList (c * 10) = digitList c ++ [0] := by
  have happend := Nat.toDigits_append_toDigits (by decide : 1 < 10) hc (by decide : 0 < 10)
  rw [Nat.add_zero, Nat.mul_comm] at happend
  rw [digitList, ← happend, List.map_append]
  rfl

theorem significant_append_zero (ds : List Nat) : significant (ds ++ [0]) = significant ds := by
  rw [significant, List.reverse_append]
  rfl

theorem significant_append {d : Nat} (hd : d ≠ 0) (ds : List Nat) :
    significant (ds ++ [d]) = ds ++ [d] := by
  rw [significant, List.reverse_append, List.reverse_singleton, List.singleton_append,
    List.dropWhile_cons_of_neg (by simpa using hd), List.reverse_cons, List.reverse_reverse]

theorem ofPoint_mul_ten {c : Nat} (hc : 0 < c) (k : Int) :
    ofPoint (c * 10) k = ofPoint c (k + 1) := by
  rw [ofPoint, digitList_mul_ten hc, significant_append_zero, ofPoint, List.length_append]
  congr 1
  push_cast
  dsimp only [List.length_singleton]
  ring

theorem ofPoint_mul_pow {c : Nat} (hc : 0 < c) (k : Int) (j : Nat) :
    ofPoint (c * 10 ^ j) k = ofPoint c (k + j) := by
  induction j generalizing k with
  | zero => rw [Nat.pow_zero, Nat.mul_one, Nat.cast_zero, add_zero]
  | succ j ih =>
    have hpos : 0 < c * 10 ^ j := Nat.mul_pos hc (Nat.pow_pos (by decide))
    rw [Nat.pow_succ, ← Nat.mul_assoc, ofPoint_mul_ten hpos, ih]
    congr 1
    push_cast
    ring

theorem eq_mul_zpow (c : Nat) {j k : Int} (h : j ≤ k) :
    (c * 10 ^ k : ℚ) = (c * 10 ^ (k - j).toNat : Nat) * 10 ^ j := by
  push_cast
  rw [← zpow_natCast, Int.toNat_of_nonneg (Int.sub_nonneg.2 h), mul_assoc,
    ← zpow_add₀ (by norm_num), sub_add_cancel]

theorem ofPoint_refine {c : Nat} (hc : 0 < c) {j k : Int} (h : j ≤ k) :
    ofPoint (c * 10 ^ (k - j).toNat) j = ofPoint c k := by
  rw [ofPoint_mul_pow hc, Int.toNat_of_nonneg (Int.sub_nonneg.2 h)]
  congr 1
  ring

end Scientific

namespace Binary64

open Scientific (ofPoint eq_mul_zpow)

theorem lt_pow_length (n : Nat) : n < 10 ^ (Nat.toDigits 10 n).length :=
  (Nat.length_toDigits_le_iff (by decide) Nat.length_toDigits_pos).1 (Nat.le_refl _)

theorem pow_length_le {n : Nat} (hn : 0 < n) : 10 ^ ((Nat.toDigits 10 n).length - 1) ≤ n := by
  rcases Nat.eq_zero_or_pos ((Nat.toDigits 10 n).length - 1) with hzero | hpos
  · rw [hzero]
    exact hn
  · refine Nat.le_of_not_lt fun hlt => ?_
    have := (Nat.length_toDigits_le_iff (by decide) hpos).2 hlt
    omega

theorem two_pow_le {j n : Nat} (h : j ≤ 83 * n) : Nat.pow 2 j ≤ Nat.pow 10 (25 * n) :=
  calc 2 ^ j ≤ 2 ^ (83 * n) := Nat.pow_le_pow_right Nat.two_pos h
    _ = (2 ^ 83) ^ n := Nat.pow_mul 2 83 n
    _ ≤ (10 ^ 25) ^ n := Nat.pow_le_pow_left (by decide) n
    _ = 10 ^ (25 * n) := (Nat.pow_mul 10 25 n).symm

section

variable {x : Binary64}

theorem magnitude_spec_of_le (hle : x.ratio.2 ≤ x.ratio.1) :
    (10 : ℚ) ^ (x.magnitude - 1) ≤ x.value ∧ x.value < 10 ^ x.magnitude := by
  have hd : (0 : ℚ) < x.ratio.2 := by exact_mod_cast x.ratio_pos
  have hlow := pow_length_le (Nat.div_pos hle x.ratio_pos)
  have hhigh := lt_pow_length (x.ratio.1 / x.ratio.2)
  have hlength : 1 ≤ (Nat.toDigits 10 (x.ratio.1 / x.ratio.2)).length := Nat.length_toDigits_pos
  rw [Nat.le_div_iff_mul_le x.ratio_pos] at hlow
  rw [Nat.div_lt_iff_lt_mul x.ratio_pos] at hhigh
  rw [value_eq_ratio, magnitude]
  dsimp only
  rw [if_pos hle, le_div_iff₀ hd, div_lt_iff₀ hd, ← Nat.cast_one, ← Nat.cast_sub hlength,
    zpow_natCast, zpow_natCast]
  exact_mod_cast And.intro hlow hhigh

variable (hm : x.mantissa ≠ 0) (he : -1074 ≤ x.exponent)

include hm he

theorem ratio_le {n : Nat} (hn : 1074 ≤ 83 * n) : x.ratio.2 ≤ x.ratio.1 * Nat.pow 10 (25 * n) :=
  Nat.le_trans (two_pow_le (by omega)) (Nat.le_mul_of_pos_left _
    (Nat.mul_pos (Nat.pos_of_ne_zero hm) (Nat.pow_pos Nat.two_pos)))

theorem magnitude_spec : (10 : ℚ) ^ (x.magnitude - 1) ≤ x.value ∧ x.value < 10 ^ x.magnitude := by
  by_cases hle : x.ratio.2 ≤ x.ratio.1
  · exact magnitude_spec_of_le hle
  have hd : (0 : ℚ) < x.ratio.2 := by exact_mod_cast x.ratio_pos
  rw [value_eq_ratio, magnitude]
  dsimp only
  rw [if_neg hle]
  cases hfind : (List.range 326).find? fun k => decide (x.ratio.2 ≤ x.ratio.1 * Nat.pow 10 k) with
  | none =>
    have hnone := List.find?_eq_none.1 hfind (25 * 13) (by decide)
    exact absurd (decide_eq_true (ratio_le hm he (by decide : 1074 ≤ 83 * 13))) hnone
  | some k =>
    obtain ⟨hk, -, hleast⟩ := List.find?_range_eq_some.1 hfind
    replace hk := of_decide_eq_true hk
    obtain ⟨j, rfl⟩ : ∃ j, k = j + 1 := by
      refine Nat.exists_eq_succ_of_ne_zero fun hzero => hle ?_
      rw [hzero] at hk
      exact Nat.le_trans hk (Nat.le_of_eq (Nat.mul_one _))
    have hj := of_decide_eq_false (Bool.eq_false_of_not_eq_true' (hleast j (Nat.lt_succ_self j)))
    have hlow : (x.ratio.2 : ℚ) ≤ x.ratio.1 * 10 ^ (j + 1) := by exact_mod_cast hk
    have hhigh : (x.ratio.1 * 10 ^ j : ℚ) < x.ratio.2 := by exact_mod_cast Nat.lt_of_not_le hj
    have hpoint : (1 - ((j + 1 : Nat) : ℤ)) = -(j : ℤ) := by
      push_cast
      ring
    have hbelow : -(j : ℤ) - 1 = -((j + 1 : Nat) : ℤ) := by
      push_cast
      ring
    rw [Option.getD_some, hpoint, hbelow, zpow_neg, zpow_neg, zpow_natCast, zpow_natCast,
      le_div_iff₀ hd, div_lt_iff₀ hd, inv_mul_eq_div, inv_mul_eq_div,
      div_le_iff₀ (by positivity), lt_div_iff₀ (by positivity)]
    exact ⟨hlow, hhigh⟩

end

section

variable {x : Binary64}

def floor (x : Binary64) (k : Int) : Nat :=
  x.ratio.1 * Nat.pow 10 (-k).toNat / (x.ratio.2 * Nat.pow 10 k.toNat)

theorem floor_spec (x : Binary64) (k : Int) :
    x.floor k * 10 ^ k ≤ x.value ∧ x.value < (x.floor k + 1) * 10 ^ k := by
  have hden : 0 < x.ratio.2 * Nat.pow 10 k.toNat :=
    Nat.mul_pos x.ratio_pos (Nat.pow_pos (by decide))
  have hlow := (Nat.le_div_iff_mul_le hden).1 (Nat.le_refl (x.floor k))
  have hhigh := (Nat.div_lt_iff_lt_mul hden).1 (Nat.lt_succ_self (x.floor k))
  rw [← @Nat.cast_le ℚ] at hlow
  rw [← @Nat.cast_lt ℚ] at hhigh
  push_cast [Nat.pow_eq] at hlow hhigh
  have hd : (0 : ℚ) < x.ratio.2 := by exact_mod_cast x.ratio_pos
  rw [value_eq_ratio, zpow_eq_div, le_div_iff₀ hd, div_lt_iff₀ hd]
  constructor
  · rw [mul_div_assoc', div_mul_eq_mul_div, div_le_iff₀ (by positivity)]
    linarith
  · rw [mul_div_assoc', div_mul_eq_mul_div, lt_div_iff₀ (by positivity)]
    linarith

theorem covers_of_gridPoint? {tie : Tie} {k : Int} {c : Nat} (h : x.gridPoint? tie k = some c) :
    x.Covers (c * 10 ^ k) := by
  have hchoose (n : Nat) : tie.choose n = n ∨ tie.choose n = n + 1 := by
    cases tie with
    | even => rcases Nat.mod_two_eq_zero_or_one n with hn | hn <;> simp [Tie.choose, hn]
    | up => exact .inr rfl
  rw [← admits_iff]
  unfold gridPoint? at h
  dsimp only at h
  split at h
  · next hlow hhigh =>
    obtain rfl := Option.some.inj h
    split
    · exact hlow
    · split
      · exact hhigh
      · rcases hchoose (x.floor k) with hc | hc
        · exact hc ▸ hlow
        · exact hc ▸ hhigh
  · next hlow _ =>
    exact Option.some.inj h ▸ hlow
  · next hhigh =>
    exact Option.some.inj h ▸ hhigh
  · cases h

theorem isSome_gridPoint? (tie : Tie) {k : Int} {c : Nat} (h : x.Covers (c * 10 ^ k))
    (hk : (2 : ℚ) ^ x.exponent < 10 ^ k) : (x.gridPoint? tie k).isSome := by
  obtain ⟨hlow, hhigh⟩ := floor_spec x k
  obtain ⟨hnear, hnear'⟩ := h.near
  have hpos : (0 : ℚ) < 10 ^ k := by positivity
  have hle : x.floor k ≤ c := by
    have hlt : (x.floor k : ℚ) < c + 1 := lt_of_mul_lt_mul_right (by linarith) hpos.le
    exact Nat.lt_succ_iff.1 (by exact_mod_cast hlt)
  have hle' : c ≤ x.floor k + 1 := by
    have hlt : (c : ℚ) < x.floor k + 2 := lt_of_mul_lt_mul_right (by linarith) hpos.le
    exact Nat.lt_succ_iff.1 (by exact_mod_cast hlt)
  rw [← admits_iff] at h
  unfold gridPoint?
  dsimp only
  rw [← floor]
  rcases (by omega : c = x.floor k ∨ c = x.floor k + 1) with rfl | rfl
  · rw [h]
    cases x.admits (x.floor k + 1) k <;> rfl
  · rw [h]
    cases x.admits (x.floor k) k <;> rfl

end

theorem eq_of_covers {x : Binary64} {k : Int} {a b : Nat} (hk : (2 : ℚ) ^ x.exponent < 10 ^ k)
    (ha : x.Covers (a * 10 ^ k)) (hb : x.Covers (b * 10 ^ k)) : a = b := by
  have hle {a b : Nat} (ha : x.Covers (a * 10 ^ k)) (hb : x.Covers (b * 10 ^ k)) : a ≤ b := by
    have hpos : (0 : ℚ) < 10 ^ k := by positivity
    have hlt : (a : ℚ) < b + 1 := by
      refine lt_of_mul_lt_mul_right ?_ hpos.le
      linarith [ha.near, hb.near]
    exact Nat.lt_succ_iff.1 (by exact_mod_cast hlt)
  exact Nat.le_antisymm (hle ha hb) (hle hb ha)

section

variable {x : Binary64} {c : Nat} {k : Int} (hfull : 2 ^ 52 ≤ x.mantissa)

include hfull

theorem step_le : (2 : ℚ) ^ x.exponent * 2 ^ 52 ≤ x.value := by
  have hle : (2 ^ 52 : ℚ) ≤ x.mantissa := by exact_mod_cast hfull
  rw [value, mul_comm]
  exact mul_le_mul_of_nonneg_right hle (by positivity)

theorem step_lt (h : x.value < 10 ^ x.magnitude) :
    (2 : ℚ) ^ x.exponent < 10 ^ (x.magnitude - 15) := by
  have hstep := step_le hfull
  have hsplit : (10 : ℚ) ^ x.magnitude = 10 ^ (x.magnitude - 15) * 10 ^ 15 := by
    rw [← zpow_natCast, ← zpow_add₀ (by norm_num)]
    norm_num
  have hpos : (0 : ℚ) < 10 ^ (x.magnitude - 15) := by positivity
  rw [hsplit] at h
  norm_num at hstep h
  linarith

/-- A covered decimal of 15 digits has none below the fifteenth of the number. -/
theorem le_of_covers (h : (10 : ℚ) ^ (x.magnitude - 1) ≤ x.value) (hcovers : x.Covers (c * 10 ^ k))
    (hc : c < 10 ^ 15) : x.magnitude - 15 ≤ k := by
  by_contra hlt
  obtain ⟨hnear, -⟩ := hcovers.near
  have hstep := step_le hfull
  have hpos : (0 : ℚ) < 2 ^ x.exponent := by positivity
  have hc' : (c : ℚ) * 10 ^ k ≤ (10 ^ 15 - 1) * 10 ^ k := by
    refine mul_le_mul_of_nonneg_right ?_ (by positivity)
    have : (c : ℚ) + 1 ≤ 10 ^ 15 := by exact_mod_cast hc
    linarith
  have hgrid : (10 ^ k : ℚ) * 10 ^ 15 ≤ 10 ^ (x.magnitude - 1) := by
    rw [← zpow_natCast, ← zpow_add₀ (by norm_num)]
    exact zpow_le_zpow_right₀ (by norm_num) (by push_cast; omega)
  norm_num at hc' hgrid hstep
  linarith

end

def candidate? (tie : Tie) (x : Binary64) (i : Nat) : Option Scientific :=
  let k : Int := x.magnitude - ((i + 1 : Nat) : Int)
  (x.gridPoint? tie k).map fun c => .ofPoint c k

theorem shortest_eq (tie : Tie) {x : Binary64} (h : x.mantissa ≠ 0) :
    x.shortest tie = ((List.range 17).findSome? (x.candidate? tie)).getD ⟨[0], 1⟩ :=
  if_neg fun hzero => h (of_decide_eq_true hzero)

theorem shortest_of_rounds (tie : Tie) {x : Binary64} {c : Nat} {k : Int}
    (h : Rounds (c * 10 ^ k) x) (hc : 0 < c) (hc' : c < 10 ^ 15) (hfull : 2 ^ 52 ≤ x.mantissa) :
    x.shortest tie = .ofPoint c k := by
  have hm : x.mantissa ≠ 0 := Nat.ne_of_gt (Nat.lt_of_lt_of_le (by decide) hfull)
  obtain ⟨hlow, hhigh⟩ := magnitude_spec hm h.least
  have hstep := step_lt hfull hhigh
  have hk := le_of_covers hfull hlow h.covers hc'
  have hcovers := h.covers
  rw [eq_mul_zpow c hk] at hcovers
  -- fifteen digits are enough, and with fewer ones the point is the same
  have hsome : ((List.range 15).findSome? (x.candidate? tie)).isSome := by
    refine List.findSome?_isSome_iff.2 ⟨14, by decide, ?_⟩
    rw [candidate?, Option.isSome_map]
    exact isSome_gridPoint? tie hcovers hstep
  obtain ⟨y, hy⟩ := Option.isSome_iff_exists.1 hsome
  obtain ⟨i, hi, hfound⟩ := List.exists_of_findSome?_eq_some hy
  obtain ⟨d, hd, rfl⟩ := Option.map_eq_some_iff.1 hfound
  have hle : x.magnitude - 15 ≤ x.magnitude - ((i + 1 : Nat) : Int) := by
    have := List.mem_range.1 hi
    omega
  have hcovers' := covers_of_gridPoint? hd
  rw [eq_mul_zpow d hle] at hcovers'
  have heq := eq_of_covers hstep hcovers' hcovers
  have hdpos : 0 < d := by
    refine Nat.pos_of_ne_zero fun hzero => ?_
    rw [hzero, Nat.zero_mul] at heq
    exact absurd heq (Nat.ne_of_lt (Nat.mul_pos hc (Nat.pow_pos (by decide))))
  have hrange : List.range 17 = List.range 15 ++ [15, 16] := rfl
  rw [shortest_eq tie hm, hrange, List.findSome?_append, hy, Option.some_or, Option.getD_some]
  rw [← Scientific.ofPoint_refine hdpos hle, heq, Scientific.ofPoint_refine hc hk]

end Binary64

end Phrasebook.Decimal
