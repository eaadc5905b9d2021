import Phrasebook.Proofs.Utf8
import Phrasebook.Text.Encoding

namespace Phrasebook

namespace Text.Utf8

theorem toNat_char {n : Nat} (h : n.isValidChar) : (Char.ofNat n).toNat = n := by
  rw [Char.ofNat, dif_pos h]
  rfl

theorem ofNat_eq {b : UInt8} {n : Nat} (h : n = b.toNat) : UInt8.ofNat n = b := by
  rw [h, UInt8.ofNat_toNat]

theorem low_lt (b : UInt8) : low b < 64 := Nat.mod_lt _ (by decide)

theorem toNat_of_isTail {b : UInt8} (h : isTail b = true) : b.toNat = 0x80 + low b := by
  rw [isTail, inRange_iff rfl] at h
  simp only [low, UInt8.reduceToNat] at *
  omega

theorem toNat_of_isSecond {b b₁ : UInt8} (h : isSecond b b₁ = true) : b₁.toNat = 0x80 + low b₁ ∧
    (b.toNat = 0xE0 → 0x20 ≤ low b₁) ∧ (b.toNat = 0xED → low b₁ < 0x20) ∧
      (b.toNat = 0xF0 → 0x10 ≤ low b₁) ∧ (b.toNat = 0xF4 → low b₁ < 0x10) := by
  simp only [isSecond, isTail, beq_iff_eq, low, ← UInt8.toNat_inj] at h ⊢
  repeat' split at h
  all_goals
    rw [inRange_iff rfl] at h
    simp only [UInt8.reduceToNat] at *
    omega

section

variable {b b₁ b₂ b₃ : UInt8}

theorem encodeChar_one (hb : b.toNat < 0x80) : encodeChar (.ofNat b.toNat) = [b] := by
  have hnat : (Char.ofNat b.toNat).toNat = b.toNat := toNat_char (.inl (by omega))
  unfold encodeChar
  simp only [hnat, if_pos hb, UInt8.ofNat_toNat]

theorem encodeChar_two (hb : 0xC2 ≤ b.toNat ∧ b.toNat ≤ 0xDF) (h₁ : isTail b₁ = true) :
    encodeChar (.ofNat ((b.toNat - 0xC0) * 64 + low b₁)) = [b, b₁] := by
  have ht₁ := toNat_of_isTail h₁
  have hlow₁ := low_lt b₁
  generalize hn : (b.toNat - 0xC0) * 64 + low b₁ = n
  have hnat : (Char.ofNat n).toNat = n := toNat_char (.inl (by omega))
  have hn₁ : ¬n < 0x80 := by omega
  have hn₂ : n < 0x800 := by omega
  unfold encodeChar
  simp only [hnat, if_neg hn₁, if_pos hn₂]
  rw [ofNat_eq (b := b) (by omega), ofNat_eq (b := b₁) (by omega)]

theorem encodeChar_three (hb : 0xE0 ≤ b.toNat ∧ b.toNat ≤ 0xEF) (h₁ : isSecond b b₁ = true)
    (h₂ : isTail b₂ = true) :
    encodeChar (.ofNat ((b.toNat - 0xE0) * 4096 + low b₁ * 64 + low b₂)) = [b, b₁, b₂] := by
  obtain ⟨ht₁, hE0, hED, -⟩ := toNat_of_isSecond h₁
  have ht₂ := toNat_of_isTail h₂
  have hlow₁ := low_lt b₁
  have hlow₂ := low_lt b₂
  generalize hn : (b.toNat - 0xE0) * 4096 + low b₁ * 64 + low b₂ = n
  have hvalid : n.isValidChar := by
    unfold Nat.isValidChar
    omega
  have hn₁ : ¬n < 0x80 := by omega
  have hn₂ : ¬n < 0x800 := by omega
  have hn₃ : n < 0x10000 := by omega
  unfold encodeChar
  simp only [toNat_char hvalid, if_neg hn₁, if_neg hn₂, if_pos hn₃]
  rw [ofNat_eq (b := b) (by omega), ofNat_eq (b := b₁) (by omega), ofNat_eq (b := b₂) (by omega)]

theorem encodeChar_four (hb : 0xF0 ≤ b.toNat ∧ b.toNat ≤ 0xF4) (h₁ : isSecond b b₁ = true)
    (h₂ : isTail b₂ = true) (h₃ : isTail b₃ = true) :
    encodeChar (.ofNat ((b.toNat - 0xF0) * 262144 + low b₁ * 4096 + low b₂ * 64 + low b₃)) =
      [b, b₁, b₂, b₃] := by
  obtain ⟨ht₁, -, -, hF0, hF4⟩ := toNat_of_isSecond h₁
  have ht₂ := toNat_of_isTail h₂
  have ht₃ := toNat_of_isTail h₃
  have hlow₁ := low_lt b₁
  have hlow₂ := low_lt b₂
  have hlow₃ := low_lt b₃
  generalize hn : (b.toNat - 0xF0) * 262144 + low b₁ * 4096 + low b₂ * 64 + low b₃ = n
  have hvalid : n.isValidChar := by
    unfold Nat.isValidChar
    omega
  have hn₁ : ¬n < 0x80 := by omega
  have hn₂ : ¬n < 0x800 := by omega
  have hn₃ : ¬n < 0x10000 := by omega
  unfold encodeChar
  simp only [toNat_char hvalid, if_neg hn₁, if_neg hn₂, if_neg hn₃]
  rw [ofNat_eq (b := b) (by omega), ofNat_eq (b := b₁) (by omega), ofNat_eq (b := b₂) (by omega),
    ofNat_eq (b := b₃) (by omega)]

end

theorem encodeChar_of_head {b : UInt8} {bs r : List UInt8} {c : Char}
    (h : head b bs = .char c r) : encodeChar c ++ r = b :: bs := by
  unfold head at h
  split at h
  · next hb =>
    cases h
    rw [encodeChar_one (UInt8.lt_iff_toNat_lt.1 hb)]
    rfl
  · split at h
    · next hb =>
      rw [inRange_iff rfl] at hb
      split at h
      · split at h
        · next h₁ =>
          cases h
          rw [encodeChar_two hb h₁]
          rfl
        · cases h
      · cases h
    · split at h
      · next hb =>
        rw [inRange_iff rfl] at hb
        split at h
        · split at h
          · cases h
          · next h₁ =>
            split at h
            · cases h
            · next h₂ =>
              cases h
              rw [encodeChar_three hb (by simpa using h₁) (by simpa using h₂)]
              rfl
        · split at h <;> cases h
        · cases h
      · split at h
        · next hb =>
          rw [inRange_iff rfl] at hb
          split at h
          · split at h
            · cases h
            · next h₁ =>
              split at h
              · split at h
                · cases h
                · next h₂ =>
                  split at h
                  · split at h
                    · cases h
                    · next h₃ =>
                      cases h
                      rw [encodeChar_four hb (by simpa using h₁) (by simpa using h₂)
                        (by simpa using h₃)]
                      rfl
                  · cases h
              · cases h
          · cases h
        · cases h

theorem eq_encode_of_decode {bs : List UInt8} {cs : List Char} (h : decode bs = some cs) :
    bs = encode cs := by
  fun_induction decode bs generalizing cs with
  | case1 =>
    cases h
    rfl
  | case2 b bs c r hhead ih =>
    obtain ⟨cs, hcs, rfl⟩ := Option.map_eq_some_iff.1 h
    rw [← encodeChar_of_head hhead, ih hcs]
    rfl
  | case3 => cases h

theorem decode_eq_some_iff {bs : List UInt8} {cs : List Char} :
    decode bs = some cs ↔ encode cs = bs := by
  constructor
  · exact fun h => (eq_encode_of_decode h).symm
  · rintro rfl
    exact decode_encode cs

end Text.Utf8

namespace Encoding

theorem splitUnit_joinUnit (bigEndian : Bool) (a b : UInt8) :
    splitUnit bigEndian (joinUnit bigEndian a b) = [a, b] := by
  have ha := a.toNat_lt
  have hb := b.toNat_lt
  unfold splitUnit joinUnit
  cases bigEndian
  · rw [if_neg Bool.false_ne_true, if_neg Bool.false_ne_true,
      Text.Utf8.ofNat_eq (b := a) (by omega), Text.Utf8.ofNat_eq (b := b) (by omega)]
  · rw [if_pos rfl, if_pos rfl, Text.Utf8.ofNat_eq (b := a) (by omega),
      Text.Utf8.ofNat_eq (b := b) (by omega)]

theorem joinUnit_lt (bigEndian : Bool) (a b : UInt8) : joinUnit bigEndian a b < 0x10000 := by
  have ha := a.toNat_lt
  have hb := b.toNat_lt
  unfold joinUnit
  split <;> omega

theorem units_splitUnit (bigEndian : Bool) {n : Nat} (hn : n < 0x10000) (bs : List UInt8) :
    units bigEndian (splitUnit bigEndian n ++ bs) = (units bigEndian bs).map (n :: ·) := by
  have hhigh := Text.Utf8.toNat_ofNat_of_lt (n := n / 256) (by omega)
  have hlow := Text.Utf8.toNat_ofNat_of_lt (n := n % 256) (by omega)
  have hjoin : n / 256 * 256 + n % 256 = n := by omega
  cases bigEndian <;> simp [splitUnit, units, joinUnit, hhigh, hlow, hjoin]

theorem units_eq_some_iff {bigEndian : Bool} {bs : List UInt8} {us : List Nat} :
    units bigEndian bs = some us ↔
      us.flatMap (splitUnit bigEndian) = bs ∧ ∀ n ∈ us, n < 0x10000 := by
  constructor
  · intro h
    fun_induction units bigEndian bs generalizing us with
    | case1 =>
      cases h
      exact ⟨rfl, nofun⟩
    | case2 => cases h
    | case3 a b bs ih =>
      obtain ⟨us, hus, rfl⟩ := Option.map_eq_some_iff.1 h
      obtain ⟨rfl, hlt⟩ := ih hus
      refine ⟨?_, List.forall_mem_cons.2 ⟨joinUnit_lt bigEndian a b, hlt⟩⟩
      rw [List.flatMap_cons, splitUnit_joinUnit]
      rfl
  · rintro ⟨rfl, hlt⟩
    induction us with
    | nil => rfl
    | cons n us ih =>
      obtain ⟨hn, hus⟩ := List.forall_mem_cons.1 hlt
      rw [List.flatMap_cons, units_splitUnit bigEndian hn, ih hus]
      rfl

theorem isHighHalf_iff {n : Nat} : isHighHalf n = true ↔ 0xD800 ≤ n ∧ n ≤ 0xDBFF := by
  rw [isHighHalf, Bool.and_eq_true, decide_eq_true_eq, decide_eq_true_eq]

theorem isLowHalf_iff {n : Nat} : isLowHalf n = true ↔ 0xDC00 ≤ n ∧ n ≤ 0xDFFF := by
  rw [isLowHalf, Bool.and_eq_true, decide_eq_true_eq, decide_eq_true_eq]

theorem charsOfUnits_single {n : Nat} (hhigh : ¬isHighHalf n = true) (hlow : ¬isLowHalf n = true)
    (us : List Nat) : charsOfUnits (n :: us) = (charsOfUnits us).map (.ofNat n :: ·) := by
  cases us with
  | nil =>
    have hhalf : ¬(isHighHalf n || isLowHalf n) = true := by
      rw [Bool.or_eq_true]
      exact not_or.2 ⟨hhigh, hlow⟩
    rw [charsOfUnits, charsOfUnits, if_neg hhalf, Option.map_some]
  | cons m us => rw [charsOfUnits, if_neg hhigh, if_neg hlow]

theorem charsOfUnits_pair {n m : Nat} (hhigh : isHighHalf n = true) (hlow : isLowHalf m = true)
    (us : List Nat) :
    charsOfUnits (n :: m :: us) = (charsOfUnits us).map (joinHalves n m :: ·) := by
  rw [charsOfUnits, if_pos hhigh, if_pos hlow]

theorem charsOfUnits_char (c : Char) (us : List Nat) :
    charsOfUnits (unitsOfChar c ++ us) = (charsOfUnits us).map (c :: ·) := by
  obtain ⟨hlt, hvalid⟩ := Text.Utf8.toNat_valid c
  unfold unitsOfChar
  split
  · rw [List.singleton_append, charsOfUnits_single, Char.ofNat_toNat]
    · rw [isHighHalf_iff]
      omega
    · rw [isLowHalf_iff]
      omega
  · have hnat : 0x10000 + (0xD800 + (c.toNat - 0x10000) / 0x400 - 0xD800) * 0x400 +
        (0xDC00 + (c.toNat - 0x10000) % 0x400 - 0xDC00) = c.toNat := by omega
    have hjoin : joinHalves (0xD800 + (c.toNat - 0x10000) / 0x400)
        (0xDC00 + (c.toNat - 0x10000) % 0x400) = c := by
      rw [joinHalves, hnat, Char.ofNat_toNat]
    rw [List.cons_append, List.singleton_append, charsOfUnits_pair, hjoin]
    · rw [isHighHalf_iff]
      omega
    · rw [isLowHalf_iff]
      omega

theorem unitsOfChar_single {n : Nat} (hn : n < 0x10000) (hhigh : ¬isHighHalf n = true)
    (hlow : ¬isLowHalf n = true) : unitsOfChar (.ofNat n) = [n] := by
  rw [isHighHalf_iff] at hhigh
  rw [isLowHalf_iff] at hlow
  have hvalid : n.isValidChar := by
    unfold Nat.isValidChar
    omega
  rw [unitsOfChar, Text.Utf8.toNat_char hvalid, if_pos hn]

theorem unitsOfChar_pair {n m : Nat} (hhigh : isHighHalf n = true) (hlow : isLowHalf m = true) :
    unitsOfChar (joinHalves n m) = [n, m] := by
  rw [isHighHalf_iff] at hhigh
  rw [isLowHalf_iff] at hlow
  unfold joinHalves
  generalize hk : 0x10000 + (n - 0xD800) * 0x400 + (m - 0xDC00) = k
  have hvalid : k.isValidChar := by
    unfold Nat.isValidChar
    omega
  have hlarge : ¬k < 0x10000 := by omega
  have hn : 0xD800 + (k - 0x10000) / 0x400 = n := by omega
  have hm : 0xDC00 + (k - 0x10000) % 0x400 = m := by omega
  rw [unitsOfChar, Text.Utf8.toNat_char hvalid, if_neg hlarge, hn, hm]

theorem flatMap_unitsOfChar {us : List Nat} {cs : List Char} (h : charsOfUnits us = some cs)
    (hlt : ∀ n ∈ us, n < 0x10000) : cs.flatMap unitsOfChar = us := by
  fun_induction charsOfUnits us generalizing cs with
  | case1 =>
    cases h
    rfl
  | case2 => cases h
  | case3 n hhalf =>
    cases h
    rw [Bool.or_eq_true, not_or] at hhalf
    rw [List.flatMap_singleton]
    exact unitsOfChar_single (hlt n List.mem_cons_self) hhalf.1 hhalf.2
  | case4 n m r hhigh hlow ih =>
    obtain ⟨cs, hcs, rfl⟩ := Option.map_eq_some_iff.1 h
    rw [List.flatMap_cons, unitsOfChar_pair hhigh hlow,
      ih hcs fun k hk => hlt k (List.mem_cons_of_mem n (List.mem_cons_of_mem m hk))]
    rfl
  | case5 => cases h
  | case6 => cases h
  | case7 n m r hhigh hlow ih =>
    obtain ⟨cs, hcs, rfl⟩ := Option.map_eq_some_iff.1 h
    rw [List.flatMap_cons, unitsOfChar_single (hlt n List.mem_cons_self) hhigh hlow,
      ih hcs fun k hk => hlt k (List.mem_cons_of_mem n hk)]
    rfl

theorem unitsOfChar_lt (c : Char) : ∀ n ∈ unitsOfChar c, n < 0x10000 := by
  obtain ⟨hlt, -⟩ := Text.Utf8.toNat_valid c
  unfold unitsOfChar
  split
  · simpa
  · simp only [List.mem_cons, List.not_mem_nil, or_false, forall_eq_or_imp, forall_eq]
    omega

theorem charsOfUnits_eq_some_iff {us : List Nat} {cs : List Char} (hlt : ∀ n ∈ us, n < 0x10000) :
    charsOfUnits us = some cs ↔ cs.flatMap unitsOfChar = us := by
  constructor
  · exact fun h => flatMap_unitsOfChar h hlt
  · rintro rfl
    clear hlt
    induction cs with
    | nil => rfl
    | cons c cs ih =>
      rw [List.flatMap_cons, charsOfUnits_char, ih]
      rfl

theorem bind_units_eq_some_iff {bigEndian : Bool} {bs : List UInt8} {cs : List Char} :
    (units bigEndian bs).bind charsOfUnits = some cs ↔
      (cs.flatMap unitsOfChar).flatMap (splitUnit bigEndian) = bs := by
  rw [Option.bind_eq_some_iff]
  constructor
  · rintro ⟨us, hus, hcs⟩
    obtain ⟨hbs, hlt⟩ := units_eq_some_iff.1 hus
    rw [(charsOfUnits_eq_some_iff hlt).1 hcs, hbs]
  · intro hbs
    have hlt : ∀ n ∈ cs.flatMap unitsOfChar, n < 0x10000 := by
      intro n hn
      obtain ⟨c, -, hn⟩ := List.mem_flatMap.1 hn
      exact unitsOfChar_lt c n hn
    exact ⟨_, units_eq_some_iff.2 ⟨hbs, hlt⟩, (charsOfUnits_eq_some_iff hlt).2 rfl⟩

end Encoding

end Phrasebook
