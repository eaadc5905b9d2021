import Phrasebook.Text.Quoted

namespace Phrasebook.Text

theorem hexValue?_hexDigit : ∀ d, d < 16 → hexValue? (hexDigit d) = some d := by
  decide

theorem hexDigit_ne : ∀ d, d < 16 → hexDigit d ≠ '\x7d' ∧ hexDigit d ≠ '_' ∧ hexDigit d ≠ '\n' := by
  decide

theorem lt_of_mem_hexPlaces {n d : Nat} (h : d ∈ hexPlaces n) : d < 16 := by
  simp only [hexPlaces, List.mem_cons, List.not_mem_nil, or_false] at h
  rcases h with rfl | rfl | rfl | rfl | rfl | rfl <;> exact Nat.mod_lt _ (by decide)

def hexNumber (ds : List Nat) (value : Nat) : Nat := ds.foldl (fun v d => v * 16 + d) value

theorem hexNumber_hexPlaces {n : Nat} (h : n < 0x1000000) : hexNumber (hexPlaces n) 0 = n := by
  simp only [hexNumber, hexPlaces, List.foldl_cons, List.foldl_nil]
  omega

theorem hexNumber_dropWhile (ds : List Nat) :
    hexNumber (ds.dropWhile (· == 0)) 0 = hexNumber ds 0 := by
  induction ds with
  | nil => rfl
  | cons d ds ih =>
    rw [List.dropWhile_cons]
    split
    · next h =>
      rw [ih, beq_iff_eq.1 h]
      rfl
    · rfl

theorem exists_hexText {n : Nat} (h : n < 0x1000000) :
    ∃ ds, hexText n = ds.map hexDigit ∧ (∀ d ∈ ds, d < 16) ∧ ds ≠ [] ∧ ds.length ≤ 6 ∧
      hexNumber ds 0 = n := by
  have hsub := List.dropWhile_sublist (l := hexPlaces n) (· == 0)
  have hnumber := (hexNumber_dropWhile (hexPlaces n)).trans (hexNumber_hexPlaces h)
  unfold hexText
  generalize (hexPlaces n).dropWhile (· == 0) = ds at hsub hnumber ⊢
  cases ds with
  | nil => exact ⟨[0], rfl, by decide, by decide, by decide, hnumber⟩
  | cons d ds =>
    refine ⟨d :: ds, rfl, ?_, List.cons_ne_nil d ds, hsub.length_le, hnumber⟩
    exact fun e he => lt_of_mem_hexPlaces (hsub.subset he)

namespace Quoted

theorem readCode_map_hexDigit {ds : List Nat} (hds : ∀ d ∈ ds, d < 16) (value digits : Nat)
    (hlength : digits + ds.length ≤ 6) (r : List Char) :
    readCode value digits (ds.map hexDigit ++ '\x7d' :: r) =
      readCode (hexNumber ds value) (digits + ds.length) ('\x7d' :: r) := by
  induction ds generalizing value digits with
  | nil => rfl
  | cons d ds ih =>
    have hd := hds d List.mem_cons_self
    obtain ⟨h₁, h₂, -⟩ := hexDigit_ne d hd
    rw [List.length_cons] at hlength ⊢
    have hroom : digits < 6 := by omega
    rw [List.map_cons, List.cons_append, readCode, if_neg h₁, if_neg h₂, hexValue?_hexDigit d hd]
    simp only [if_pos hroom]
    rw [ih (fun e he => hds e (List.mem_cons_of_mem d he)) _ _ (by omega)]
    rw [Nat.add_right_comm, Nat.add_assoc]
    rfl

theorem readCode_hexText (c : Char) (r : List Char) :
    readCode 0 0 (hexText c.toNat ++ '\x7d' :: r) = some (c, r) := by
  have hlt : c.toNat < 0x1000000 := by
    rcases c.valid with h | h
    · exact Nat.lt_trans h (by decide)
    · exact Nat.lt_trans h.2 (by decide)
  obtain ⟨ds, htext, hds, hne, hlength, hnumber⟩ := exists_hexText hlt
  have hcount : 0 + ds.length ≠ 0 := by
    have := List.length_pos_iff.2 hne
    omega
  rw [htext, readCode_map_hexDigit hds 0 0 (by omega), hnumber, readCode, if_pos rfl,
    if_pos ⟨c.valid, hcount⟩, Char.ofNat_toNat]

theorem readBody_escape (e : Option Char) (rest : List Char) {cs s r : List Char}
    (h : readEscape cs = some (e, rest)) (hr : readBody rest = some (s, r)) :
    readBody ('\\' :: cs) = some (e.toList ++ s, r) := by
  rw [readBody, if_neg (by decide), if_pos rfl]
  split
  · next heq =>
    cases h.symm.trans heq
    rw [hr]
    rfl
  · next heq => cases h.symm.trans heq

theorem readBody_quoteChar (c : Char) {cs s r : List Char} (h : readBody cs = some (s, r)) :
    readBody (quoteChar c ++ cs) = some (c :: s, r) := by
  unfold quoteChar
  split
  · next hc =>
    subst hc
    exact readBody_escape (some _) cs rfl h
  split
  · next hc =>
    subst hc
    exact readBody_escape (some _) cs rfl h
  split
  · next hc =>
    subst hc
    exact readBody_escape (some _) cs rfl h
  split
  · next hc =>
    subst hc
    exact readBody_escape (some _) cs rfl h
  split
  · next hc =>
    subst hc
    exact readBody_escape (some _) cs rfl h
  split
  · next hc =>
    subst hc
    exact readBody_escape (some _) cs rfl h
  split
  · refine readBody_escape (some c) cs ?_ h
    simp [readEscape, readCode_hexText]
  · next hquote hslash _ =>
    rw [List.singleton_append, readBody, if_neg hquote, if_neg hslash, h]
    rfl

theorem readBody_flatMap_quoteChar (s r : List Char) :
    readBody (s.flatMap quoteChar ++ '"' :: r) = some (s, r) := by
  induction s with
  | nil =>
    rw [List.flatMap_nil, List.nil_append, readBody, if_pos rfl]
  | cons c s ih =>
    rw [List.flatMap_cons, List.append_assoc]
    exact readBody_quoteChar c ih

theorem newline_not_mem_hexText (n : Nat) : '\n' ∉ hexText n := by
  unfold hexText
  have hsub := List.dropWhile_sublist (l := hexPlaces n) (· == 0)
  generalize (hexPlaces n).dropWhile (· == 0) = ds at hsub
  cases ds with
  | nil => decide
  | cons d ds =>
    intro h
    obtain ⟨e, he, heq⟩ := List.mem_map.1 h
    exact (hexDigit_ne e (lt_of_mem_hexPlaces (hsub.subset he))).2.2 heq

theorem newline_not_mem_quoteChar (c : Char) : '\n' ∉ quoteChar c := by
  unfold quoteChar
  split
  · decide
  split
  · decide
  split
  · decide
  split
  · decide
  split
  · decide
  split
  · decide
  split
  · simp [newline_not_mem_hexText]
  · next hnewline _ _ _ =>
    intro h
    exact hnewline (List.mem_singleton.1 h).symm

end Quoted

theorem toList_quote (s : String) :
    (quote s).toList = '"' :: s.toList.flatMap Quoted.quoteChar ++ ['"'] := String.toList_ofList

theorem readQuoted_quote (s : String) (r : List Char) :
    readQuoted ((quote s).toList ++ r) = some (s, r) := by
  rw [toList_quote, List.cons_append, List.cons_append, List.append_assoc, readQuoted,
    List.singleton_append, Quoted.readBody_flatMap_quoteChar]
  simp

theorem newline_not_mem_quote (s : String) : '\n' ∉ (quote s).toList := by
  rw [toList_quote]
  simp only [List.cons_append, List.mem_cons, List.mem_append, List.mem_flatMap, not_or]
  refine ⟨by decide, ?_, by decide, by simp⟩
  rintro ⟨c, -, hc⟩
  exact Quoted.newline_not_mem_quoteChar c hc

end Phrasebook.Text
