import Phrasebook.Path

namespace Phrasebook.Text.Utf8

theorem toNat_ofNat_of_lt {n : Nat} (h : n < 256) : (UInt8.ofNat n).toNat = n := by
  rw [UInt8.toNat_ofNat']
  exact Nat.mod_eq_of_lt h

theorem inRange_iff {b : UInt8} {n : Nat} (hb : b.toNat = n) {lo hi : UInt8} :
    (lo ≤ b && b ≤ hi) = true ↔ lo.toNat ≤ n ∧ n ≤ hi.toNat := by
  rw [Bool.and_eq_true, decide_eq_true_eq, decide_eq_true_eq, UInt8.le_iff_toNat_le,
    UInt8.le_iff_toNat_le, hb]

theorem tail_ofNat {x : Nat} (h : x < 64) :
    isTail (.ofNat (0x80 + x)) = true ∧ low (.ofNat (0x80 + x)) = x := by
  have hb := toNat_ofNat_of_lt (n := 0x80 + x) (by omega)
  constructor
  · rw [isTail, inRange_iff hb]
    simp only [UInt8.reduceToNat]
    omega
  · rw [low, hb]
    omega

/-- Four of the leading bytes bound the byte that follows them more tightly. -/
theorem isSecond_of_bounds {b b₁ : UInt8} {lead x : Nat} (hb : b.toNat = lead)
    (hb₁ : b₁.toNat = 0x80 + x) (hx : x < 64) (hE0 : lead = 0xE0 → 0x20 ≤ x)
    (hED : lead = 0xED → x < 0x20) (hF0 : lead = 0xF0 → 0x10 ≤ x) (hF4 : lead = 0xF4 → x < 0x10) :
    isSecond b b₁ = true := by
  simp only [isSecond, isTail, beq_iff_eq, ← UInt8.toNat_inj, hb, UInt8.reduceToNat]
  repeat' split
  all_goals
    rw [inRange_iff hb₁]
    simp only [UInt8.reduceToNat]
    omega

theorem head_encode_one {n : Nat} (h : n < 0x80) (r : List UInt8) :
    head (.ofNat n) r = .char (.ofNat n) r := by
  have hb := toNat_ofNat_of_lt (n := n) (by omega)
  have hlt : UInt8.ofNat n < 0x80 := by
    rw [UInt8.lt_iff_toNat_lt, hb]
    exact h
  unfold head
  rw [if_pos hlt, hb]

theorem head_encode_two {n : Nat} (h : 0x80 ≤ n) (h' : n < 0x800) (r : List UInt8) :
    head (.ofNat (0xC0 + n / 64)) (.ofNat (0x80 + n % 64) :: r) = .char (.ofNat n) r := by
  have hb := toNat_ofNat_of_lt (n := 0xC0 + n / 64) (by omega)
  obtain ⟨ht, hlow⟩ := tail_ofNat (Nat.mod_lt n (by decide : 0 < 64))
  have h₁ : ¬UInt8.ofNat (0xC0 + n / 64) < 0x80 := by
    simp only [UInt8.lt_iff_toNat_lt, hb, UInt8.reduceToNat]
    omega
  have h₂ : (0xC2 ≤ UInt8.ofNat (0xC0 + n / 64) && UInt8.ofNat (0xC0 + n / 64) ≤ 0xDF) = true := by
    rw [inRange_iff hb]
    simp only [UInt8.reduceToNat]
    omega
  have hn : (0xC0 + n / 64 - 0xC0) * 64 + n % 64 = n := by omega
  unfold head
  rw [if_neg h₁, if_pos h₂]
  simp only [ht, if_true, hb, hlow, hn]

theorem head_encode_three {n : Nat} (h : 0x800 ≤ n) (h' : n < 0x10000)
    (hvalid : n < 0xD800 ∨ 0xDFFF < n) (r : List UInt8) :
    head (.ofNat (0xE0 + n / 4096))
      (.ofNat (0x80 + n / 64 % 64) :: .ofNat (0x80 + n % 64) :: r) = .char (.ofNat n) r := by
  have hb := toNat_ofNat_of_lt (n := 0xE0 + n / 4096) (by omega)
  have hb₁ := toNat_ofNat_of_lt (n := 0x80 + n / 64 % 64) (by omega)
  obtain ⟨-, hlow₁⟩ := tail_ofNat (Nat.mod_lt (n / 64) (by decide : 0 < 64))
  obtain ⟨ht₂, hlow₂⟩ := tail_ofNat (Nat.mod_lt n (by decide : 0 < 64))
  generalize hlead : UInt8.ofNat (0xE0 + n / 4096) = b at hb ⊢
  generalize UInt8.ofNat (0x80 + n / 64 % 64) = b₁ at hb₁ hlow₁ ⊢
  have h₁ : ¬b < 0x80 := by
    simp only [UInt8.lt_iff_toNat_lt, hb, UInt8.reduceToNat]
    omega
  have h₂ : ¬(0xC2 ≤ b && b ≤ 0xDF) = true := by
    rw [inRange_iff hb]
    simp only [UInt8.reduceToNat]
    omega
  have h₃ : (0xE0 ≤ b && b ≤ 0xEF) = true := by
    rw [inRange_iff hb]
    simp only [UInt8.reduceToNat]
    omega
  have hsecond : isSecond b b₁ = true :=
    isSecond_of_bounds hb hb₁ (Nat.mod_lt _ (by decide)) (by omega) (by omega) (by omega) (by omega)
  have hn : (0xE0 + n / 4096 - 0xE0) * 4096 + n / 64 % 64 * 64 + n % 64 = n := by omega
  unfold head
  rw [if_neg h₁, if_neg h₂, if_pos h₃]
  simp only [hsecond, ht₂, Bool.not_true, Bool.false_eq_true, if_false, hb, hlow₁, hlow₂, hn]

theorem head_encode_four {n : Nat} (h : 0x10000 ≤ n) (h' : n < 0x110000) (r : List UInt8) :
    head (.ofNat (0xF0 + n / 262144)) (.ofNat (0x80 + n / 4096 % 64) ::
      .ofNat (0x80 + n / 64 % 64) :: .ofNat (0x80 + n % 64) :: r) = .char (.ofNat n) r := by
  have hb := toNat_ofNat_of_lt (n := 0xF0 + n / 262144) (by omega)
  have hb₁ := toNat_ofNat_of_lt (n := 0x80 + n / 4096 % 64) (by omega)
  obtain ⟨-, hlow₁⟩ := tail_ofNat (Nat.mod_lt (n / 4096) (by decide : 0 < 64))
  obtain ⟨ht₂, hlow₂⟩ := tail_ofNat (Nat.mod_lt (n / 64) (by decide : 0 < 64))
  obtain ⟨ht₃, hlow₃⟩ := tail_ofNat (Nat.mod_lt n (by decide : 0 < 64))
  generalize UInt8.ofNat (0xF0 + n / 262144) = b at hb ⊢
  generalize UInt8.ofNat (0x80 + n / 4096 % 64) = b₁ at hb₁ hlow₁ ⊢
  have h₁ : ¬b < 0x80 := by
    simp only [UInt8.lt_iff_toNat_lt, hb, UInt8.reduceToNat]
    omega
  have h₂ : ¬(0xC2 ≤ b && b ≤ 0xDF) = true := by
    rw [inRange_iff hb]
    simp only [UInt8.reduceToNat]
    omega
  have h₃ : ¬(0xE0 ≤ b && b ≤ 0xEF) = true := by
    rw [inRange_iff hb]
    simp only [UInt8.reduceToNat]
    omega
  have h₄ : (0xF0 ≤ b && b ≤ 0xF4) = true := by
    rw [inRange_iff hb]
    simp only [UInt8.reduceToNat]
    omega
  have hsecond : isSecond b b₁ = true :=
    isSecond_of_bounds hb hb₁ (Nat.mod_lt _ (by decide)) (by omega) (by omega) (by omega) (by omega)
  have hn : (0xF0 + n / 262144 - 0xF0) * 262144 + n / 4096 % 64 * 4096 + n / 64 % 64 * 64 +
      n % 64 = n := by omega
  unfold head
  rw [if_neg h₁, if_neg h₂, if_neg h₃, if_pos h₄]
  simp only [hsecond, ht₂, ht₃, Bool.not_true, Bool.false_eq_true, if_false, hb, hlow₁, hlow₂,
    hlow₃, hn]

theorem toNat_valid (c : Char) :
    c.toNat < 0x110000 ∧ (c.toNat < 0xD800 ∨ 0xDFFF < c.toNat) := by
  rcases c.valid with h | h
  · have hlt : c.toNat < 0xD800 := h
    exact ⟨by omega, .inl hlt⟩
  · exact ⟨h.2, .inr h.1⟩

theorem head_encodeChar (c : Char) (r : List UInt8) :
    ∃ b bs, encodeChar c ++ r = b :: bs ∧ head b bs = .char c r := by
  obtain ⟨hlt, hvalid⟩ := toNat_valid c
  have hc : Head.char (.ofNat c.toNat) r = .char c r := congrArg (Head.char · r) c.ofNat_toNat
  unfold encodeChar
  dsimp only
  split
  · next h => exact ⟨_, _, rfl, (head_encode_one h r).trans hc⟩
  · next h₁ =>
    split
    · next h => exact ⟨_, _, rfl, (head_encode_two (Nat.le_of_not_lt h₁) h r).trans hc⟩
    · next h₂ =>
      split
      · next h => exact ⟨_, _, rfl, (head_encode_three (Nat.le_of_not_lt h₂) h hvalid r).trans hc⟩
      · next h₃ => exact ⟨_, _, rfl, (head_encode_four (Nat.le_of_not_lt h₃) hlt r).trans hc⟩

theorem decode_cons {b : UInt8} {bs r : List UInt8} {c : Char} (h : head b bs = .char c r) :
    decode (b :: bs) = (decode r).map (c :: ·) := by
  rw [decode]
  split
  · next heq =>
    cases h.symm.trans heq
    rfl
  · next heq => cases h.symm.trans heq

theorem decode_encode (cs : List Char) : decode (encode cs) = some cs := by
  induction cs with
  | nil => simp [encode, decode]
  | cons c cs ih =>
    obtain ⟨b, bs, heq, hhead⟩ := head_encodeChar c (encode cs)
    change decode (encodeChar c ++ encode cs) = _
    rw [heq, decode_cons hhead, ih]
    rfl

theorem decode?_ofString (s : String) : decode? (ofString s) = some s := by
  rw [decode?, ofString, decode_encode, Option.map_some, String.ofList_toList]

theorem ofString_inj {s t : String} (h : ofString s = ofString t) : s = t := by
  rw [← Option.some_inj, ← decode?_ofString, h, decode?_ofString]

theorem ofString_append (s t : String) : ofString (s ++ t) = ofString s ++ ofString t := by
  rw [ofString, String.toList_append]
  exact List.flatMap_append

theorem mem_encodeChar {c : Char} {n : Nat} (hn : n < 0x80) (h : .ofNat n ∈ encodeChar c) :
    c = .ofNat n := by
  obtain ⟨hlt, -⟩ := toNat_valid c
  have hb := toNat_ofNat_of_lt (n := n) (by omega)
  have high {k : Nat} (hk : 0x80 ≤ k) (hk' : k < 256) : UInt8.ofNat n ≠ .ofNat k := by
    intro heq
    have := congrArg UInt8.toNat heq
    rw [hb, toNat_ofNat_of_lt hk'] at this
    omega
  unfold encodeChar at h
  dsimp only at h
  split at h
  · next hc =>
    have := congrArg UInt8.toNat (List.mem_singleton.1 h)
    rw [hb, toNat_ofNat_of_lt (by omega)] at this
    rw [this, Char.ofNat_toNat]
  · exfalso
    split at h
    · simp only [List.mem_cons, List.not_mem_nil, or_false] at h
      rcases h with h | h
      all_goals exact high (by omega) (by omega) h
    · split at h
      · simp only [List.mem_cons, List.not_mem_nil, or_false] at h
        rcases h with h | h | h
        all_goals exact high (by omega) (by omega) h
      · simp only [List.mem_cons, List.not_mem_nil, or_false] at h
        rcases h with h | h | h | h
        all_goals exact high (by omega) (by omega) h

theorem mem_ofString {s : String} {n : Nat} (hn : n < 0x80) (h : .ofNat n ∈ ofString s) :
    Char.ofNat n ∈ s.toList := by
  obtain ⟨c, hc, hmem⟩ := List.mem_flatMap.1 h
  exact mem_encodeChar hn hmem ▸ hc

theorem le_of_isTail {b : UInt8} (h : isTail b = true) : 0x80 ≤ b := by
  rw [isTail, Bool.and_eq_true, decide_eq_true_eq] at h
  exact h.1

theorem bounds_of_isSecond {b b₁ : UInt8} (h : isSecond b b₁ = true) :
    0x80 ≤ b₁ ∧ (b.toNat = 0xE0 → 0x20 ≤ low b₁) ∧ (b.toNat = 0xF0 → 0x10 ≤ low b₁) := by
  simp only [isSecond, isTail, beq_iff_eq, low, ← UInt8.toNat_inj] at h ⊢
  rw [UInt8.le_iff_toNat_le]
  repeat' split at h
  all_goals
    rw [inRange_iff rfl] at h
    simp only [UInt8.reduceToNat] at *
    omega

inductive Reads (b : UInt8) (bs : List UInt8) : Head → Prop
  | ascii : b < 0x80 → Reads b bs (.char (.ofNat b.toNat) bs)
  | char {n : Nat} (taken r : List UInt8) : bs = taken ++ r → (∀ x ∈ b :: taken, 0x80 ≤ x) →
      0x80 ≤ n → Reads b bs (.char (.ofNat n) r)
  | broken (taken r : List UInt8) : bs = taken ++ r → (∀ x ∈ b :: taken, 0x80 ≤ x) →
      Reads b bs (.broken r)

theorem reads_head (b : UInt8) (bs : List UInt8) : Reads b bs (head b bs) := by
  unfold head
  split
  · next h => exact .ascii h
  · next h =>
    have hb : 0x80 ≤ b := UInt8.not_lt.1 h
    have hnone (r : List UInt8) : Reads b r (.broken r) := .broken [] r rfl (by simpa using hb)
    split
    · next h₂ =>
      rw [inRange_iff rfl] at h₂
      simp only [UInt8.reduceToNat] at h₂
      split
      · next b₁ r =>
        split
        · next h₁ =>
          exact .char [b₁] r rfl (by simp [hb, le_of_isTail h₁]) (by omega)
        · exact hnone _
      · exact hnone _
    · split
      · next h₃ =>
        rw [inRange_iff rfl] at h₃
        simp only [UInt8.reduceToNat] at h₃
        split
        · next b₁ b₂ r =>
          split
          · exact hnone _
          · next h₁ =>
            obtain ⟨hb₁, hlow, -⟩ := bounds_of_isSecond (by simpa using h₁)
            split
            · exact .broken [b₁] _ rfl (by simp [hb, hb₁])
            · next h₂ =>
              have hb₂ := le_of_isTail (by simpa using h₂)
              exact .char [b₁, b₂] r rfl (by simp [hb, hb₁, hb₂]) (by omega)
        · next b₁ =>
          split
          · next h₁ => exact .broken [b₁] [] rfl (by simp [hb, (bounds_of_isSecond h₁).1])
          · exact hnone _
        · exact hnone _
      · split
        · next h₄ =>
          rw [inRange_iff rfl] at h₄
          simp only [UInt8.reduceToNat] at h₄
          split
          · next b₁ r₁ =>
            split
            · exact hnone _
            · next h₁ =>
              obtain ⟨hb₁, -, hlow⟩ := bounds_of_isSecond (by simpa using h₁)
              split
              · next b₂ r₂ =>
                split
                · exact .broken [b₁] _ rfl (by simp [hb, hb₁])
                · next h₂ =>
                  have hb₂ := le_of_isTail (by simpa using h₂)
                  split
                  · next b₃ r₃ =>
                    split
                    · exact .broken [b₁, b₂] _ rfl (by simp [hb, hb₁, hb₂])
                    · next h₃ =>
                      have hb₃ := le_of_isTail (by simpa using h₃)
                      exact .char [b₁, b₂, b₃] r₃ rfl (by simp [hb, hb₁, hb₂, hb₃]) (by omega)
                  · exact .broken [b₁, b₂] [] rfl (by simp [hb, hb₁, hb₂])
              · exact .broken [b₁] [] rfl (by simp [hb, hb₁])
          · exact hnone _
        · exact hnone _

theorem decodeLossy_of_char {b : UInt8} {bs r : List UInt8} {c : Char} (h : head b bs = .char c r) :
    decodeLossy (b :: bs) = c :: decodeLossy r := by
  rw [decodeLossy]
  split
  · next heq =>
    cases h.symm.trans heq
    rfl
  · next heq => cases h.symm.trans heq

theorem decodeLossy_of_broken {b : UInt8} {bs r : List UInt8} (h : head b bs = .broken r) :
    decodeLossy (b :: bs) = '\uFFFD' :: decodeLossy r := by
  rw [decodeLossy]
  split
  · next heq => cases h.symm.trans heq
  · next heq =>
    cases h.symm.trans heq
    rfl

theorem decodeLossy_ne_nil {bs : List UInt8} (h : bs ≠ []) : decodeLossy bs ≠ [] := by
  obtain ⟨b, bs, rfl⟩ := List.exists_cons_of_ne_nil h
  cases hhead : head b bs with
  | char c r =>
    rw [decodeLossy_of_char hhead]
    exact List.cons_ne_nil _ _
  | broken r =>
    rw [decodeLossy_of_broken hhead]
    exact List.cons_ne_nil _ _

theorem ofNat_inj_of_ascii {m n : Nat} (hpos : 0 < n) (hn : n < 0x80)
    (h : Char.ofNat n = .ofNat m) : n = m := by
  have toNat_ofNat {k : Nat} (hk : k.isValidChar) : (Char.ofNat k).toNat = k := by
    rw [Char.ofNat, dif_pos hk]
    rfl
  have hnat := congrArg Char.toNat h
  rw [toNat_ofNat (.inl (by omega))] at hnat
  by_cases hm : m.isValidChar
  · rwa [toNat_ofNat hm] at hnat
  · rw [Char.ofNat, dif_neg hm] at hnat
    exact absurd hnat (Nat.ne_of_gt hpos)

theorem mem_decodeLossy {bs : List UInt8} {n : Nat} (hpos : 0 < n) (hn : n < 0x80) :
    Char.ofNat n ∈ decodeLossy bs ↔ .ofNat n ∈ bs := by
  have hnat := toNat_ofNat_of_lt (n := n) (by omega)
  have hhigh {b : UInt8} {taken r : List UInt8} (h : ∀ x ∈ b :: taken, 0x80 ≤ x) :
      .ofNat n ∈ b :: (taken ++ r) ↔ .ofNat n ∈ r := by
    rw [← List.cons_append, List.mem_append, or_iff_right]
    intro hmem
    have hle := UInt8.le_iff_toNat_le.1 (h _ hmem)
    simp only [hnat, UInt8.reduceToNat] at hle
    omega
  have hother {m : Nat} (hm : 0x80 ≤ m) : Char.ofNat n ≠ .ofNat m := by
    intro h
    have := ofNat_inj_of_ascii hpos hn h
    omega
  have step {b : UInt8} {bs : List UInt8} {front : Head} (hhead : head b bs = front)
      (ih : Char.ofNat n ∈ decodeLossy front.rest ↔ .ofNat n ∈ front.rest) :
      Char.ofNat n ∈ decodeLossy (b :: bs) ↔ .ofNat n ∈ b :: bs := by
    cases hhead ▸ reads_head b bs with
    | ascii _ =>
      have hchar : Char.ofNat n = .ofNat b.toNat ↔ .ofNat n = b := by
        rw [← UInt8.toNat_inj, hnat]
        exact ⟨ofNat_inj_of_ascii hpos hn, congrArg Char.ofNat⟩
      rw [decodeLossy_of_char hhead, List.mem_cons, List.mem_cons, hchar]
      exact or_congr_right ih
    | char taken r hbs hle hm =>
      rw [decodeLossy_of_char hhead, List.mem_cons, hbs, hhigh hle, or_iff_right (hother hm)]
      exact ih
    | broken taken r hbs hle =>
      have hmark : Char.ofNat n ≠ '\uFFFD' := hother (by decide : 0x80 ≤ 0xFFFD)
      rw [decodeLossy_of_broken hhead, List.mem_cons, hbs, hhigh hle, or_iff_right hmark]
      exact ih
  induction bs using decodeLossy.induct with
  | case1 => simp [decodeLossy]
  | case2 b bs c r h ih => exact step h ih
  | case3 b bs r h ih => exact step h ih

end Phrasebook.Text.Utf8
