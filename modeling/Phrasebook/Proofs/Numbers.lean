import Phrasebook.Proofs.NormalForm
import Phrasebook.Proofs.Repetition

namespace Phrasebook

namespace Json

open Decimal (Binary64)

namespace Literal

variable (l : Literal)

theorem toString_decimal : toString (decimal l.integer) = .ofList l.integer := by
  rw [Nat.toString_eq_ofList_toDigits,
    toDigits_decimal l.isDigit_integer l.integer_ne_nil l.leading]

/-- An integer of 64 bits, signed or unsigned. Zero has no sign. -/
def IsWord : Prop :=
  l.isInteger = true ∧
    if l.negative then 1 ≤ decimal l.integer ∧ decimal l.integer ≤ Nat.pow 2 63
    else decimal l.integer ≤ Number.largest

/-- The text of the binary number that is nearest, as far as the reader finds it. -/
def IsShortest : Prop := ∃ x, l.binary? = some x ∧ l.text = Number.floatText l.negative x

section

variable {l} (h : l.isInteger = true)

include h

theorem unsigned_of_isInteger : l.unsigned = l.integer := by
  obtain ⟨hfraction, hexponent⟩ := Bool.and_eq_true_iff.1 h
  rw [unsigned, point, power, if_pos (List.isEmpty_iff.1 hfraction),
    Option.isNone_iff_eq_none.1 hexponent, List.append_nil]
  exact List.append_nil _

theorem text_of_isInteger :
    l.text = (if l.negative then "-" else "") ++ toString (decimal l.integer) := by
  rw [toString_decimal, text, chars, unsigned_of_isInteger h]
  split
  · exact String.ofList_cons
  · exact String.empty_append.symm

end

theorem text_of_isWord {l : Literal} (h : l.IsWord) :
    ∃ n, l.number? = some n ∧ n.text = l.text := by
  obtain ⟨hinteger, hrange⟩ := h
  rw [text_of_isInteger hinteger, number?]
  split at hrange
  · next hnegative =>
    have hle : decimal l.integer ≤ Number.largest := Nat.le_trans hrange.2 (by decide)
    refine ⟨_, if_pos ⟨hinteger, hle⟩, ?_⟩
    rw [hnegative, Number.ofInteger, if_neg (by decide), if_pos hrange]
    rfl
  · next hnegative =>
    refine ⟨_, if_pos ⟨hinteger, hrange⟩, ?_⟩
    rw [Bool.of_not_eq_true hnegative, Number.ofInteger, if_pos (by decide)]
    exact String.empty_append.symm

theorem binary?_of_negative_zero {l : Literal} (h : l.isInteger = true) (hshort : l.IsShort)
    (hrange : ¬(1 ≤ decimal l.integer ∧ decimal l.integer ≤ Nat.pow 2 63)) :
    l.binary? = some ((Binary64.ofNat (decimal l.integer)).getD .zero) := by
  obtain ⟨hfraction, hexponent⟩ := Bool.and_eq_true_iff.1 h
  have hdigits : l.digits = l.integer := by
    rw [digits, List.isEmpty_iff.1 hfraction, List.append_nil]
  have hlt : decimal l.integer < 10 ^ 15 := hdigits ▸ hshort.1
  have hzero : decimal l.integer = 0 := by
    have hle : (10 : Nat) ^ 15 ≤ Nat.pow 2 63 := by decide
    omega
  rw [binary?, Option.isNone_iff_eq_none.1 hexponent, significand_of_lt hshort.1, hdigits, hzero]
  exact Number.scale_zero _

theorem float_of_not_isWord {l : Literal} {n : Number} (h : ¬l.IsWord) (hn : l.number? = some n) :
    ∃ x, n = .float l.negative x ∧ (l.isInteger = false ∨ l.IsShort → l.binary? = some x) := by
  unfold number? at hn
  split at hn
  · next hword =>
    cases hn
    cases hnegative : l.negative with
    | false => exact absurd ⟨hword.1, by rw [hnegative]; exact hword.2⟩ h
    | true =>
      have hrange : ¬(1 ≤ decimal l.integer ∧ decimal l.integer ≤ Nat.pow 2 63) :=
        fun hrange => h ⟨hword.1, by rw [hnegative]; exact hrange⟩
      rw [Number.ofInteger, if_neg (by decide), if_neg hrange]
      refine ⟨_, rfl, ?_⟩
      rintro (hinteger | hshort)
      · exact absurd (hinteger.symm.trans hword.1) Bool.false_ne_true
      · exact binary?_of_negative_zero hword.1 hshort hrange
  · obtain ⟨x, hx, rfl⟩ := Option.map_eq_some_iff.1 hn
    exact ⟨x, rfl, fun _ => hx⟩

theorem not_pointed_of_isInteger {l : Literal} (h : l.isInteger = true) {c : Char}
    (hc : c ∈ l.text.toList) : c ≠ '.' ∧ c ≠ 'e' := by
  rw [text, String.toList_ofList, chars, unsigned_of_isInteger h] at hc
  have hdigit {c : Char} (hc : c ∈ l.integer) : c ≠ '.' ∧ c ≠ 'e' := by
    constructor <;>
    · rintro rfl
      exact absurd (l.isDigit_integer _ hc) (by decide)
  split at hc
  · rcases List.mem_cons.1 hc with rfl | hc
    · decide
    · exact hdigit hc
  · exact hdigit hc

theorem pointed_floatText (negative : Bool) (x : Binary64) :
    ∃ c ∈ (Number.floatText negative x).toList, c = '.' ∨ c = 'e' := by
  have htext : ∃ c ∈ (x.text Number.style).toList, c = '.' ∨ c = 'e' := by
    rw [Binary64.text, Decimal.Scientific.text]
    split
    · refine ⟨'.', ?_, .inl rfl⟩
      rw [Decimal.Scientific.positional]
      split
      · simp
      · dsimp only
        split <;> simp
    · refine ⟨'e', ?_, .inr rfl⟩
      rw [Decimal.Scientific.exponential]
      simp
  obtain ⟨c, hc, hpoint⟩ := htext
  refine ⟨c, ?_, hpoint⟩
  rw [Number.floatText, String.toList_append]
  exact List.mem_append_right _ hc

theorem text_eq_iff {l : Literal} {n : Number} (hn : l.number? = some n) :
    n.text = l.text ↔ l.IsWord ∨ l.IsShortest := by
  by_cases hword : l.IsWord
  · obtain ⟨n', hn', htext⟩ := text_of_isWord hword
    cases hn.symm.trans hn'
    exact iff_of_true htext (.inl hword)
  · obtain ⟨x, rfl, hx⟩ := float_of_not_isWord hword hn
    rw [or_iff_right hword]
    cases hinteger : l.isInteger with
    | true =>
      have hne (x : Binary64) : Number.floatText l.negative x ≠ l.text := by
        intro heq
        obtain ⟨c, hc, hpoint⟩ := pointed_floatText l.negative x
        rw [heq] at hc
        obtain ⟨hdot, he⟩ := not_pointed_of_isInteger hinteger hc
        exact hpoint.elim hdot he
      exact iff_of_false (hne x) fun ⟨x, _, heq⟩ => hne x heq.symm
    | false =>
      rw [IsShortest, hx (.inl hinteger)]
      constructor
      · exact fun heq => ⟨x, rfl, heq.symm⟩
      · rintro ⟨_, ⟨⟩, heq⟩
        exact heq.symm

theorem text_of_isShort {l : Literal} {n : Number} (h : l.IsShort) (hword : ¬l.IsWord)
    (hn : l.number? = some n) :
    n.text = (if l.negative then "-" else "") ++ l.scientific.text Number.style := by
  obtain ⟨x, rfl, hx⟩ := float_of_not_isWord hword hn
  exact floatText_of_isShort h (hx (.inr h))

theorem isNormal_of_isShortest {l : Literal} (h : l.IsShortest) : l.IsNormal := by
  obtain ⟨x, -, htext⟩ := h
  exact isNormal_of_text (Decimal.Scientific.isReduced_shortest _ x) htext

structure Becomes (l : Literal) (value : String) : Prop where
  read : ∃ n, l.number? = some n ∧ value = n.text
  kept_iff : value = l.text ↔ l.IsWord ∨ l.IsShortest
  isNormal : value = l.text → l.IsWord ∨ l.IsNormal
  /-- The decimal is still the one that is written. -/
  text_of_short : l.IsShort → ¬l.IsWord →
    value = (if l.negative then "-" else "") ++ l.scientific.text Number.style
  kept_iff_of_short : l.IsShort → (value = l.text ↔ l.IsWord ∨ l.IsNormal)

theorem becomes {l : Literal} {n : Number} (hn : l.number? = some n) : l.Becomes n.text where
  read := ⟨n, hn, rfl⟩
  kept_iff := text_eq_iff hn
  isNormal h := ((text_eq_iff hn).1 h).imp_right isNormal_of_isShortest
  text_of_short hshort hword := text_of_isShort hshort hword hn
  kept_iff_of_short hshort := by
    by_cases hword : l.IsWord
    · exact iff_of_true ((text_eq_iff hn).2 (.inl hword)) (.inl hword)
    · rw [text_of_isShort hshort hword hn, isNormal_iff, or_iff_right hword]
      exact eq_comm

end Literal

end Json

namespace Format

open Json (Mark Tree DocumentSpelling)

theorem numbers_of_parse {path : Path} {text : String} {c : Contents}
    (h : Format.json.parse path text = .ok c) :
    (∃ ms, DocumentSpelling (.object ms) text.toList) ∧
      ∀ ms, DocumentSpelling (.object ms) text.toList → ∀ name l key value,
        (name, Tree.number l) ∈ ms → Mark.text? name = some key → ⟨key, value⟩ ∈ c.entries →
          l.Becomes value := by
  constructor
  · simp only [parse] at h
    split at h
    · next hread =>
      obtain ⟨ms, hms, -⟩ := Json.exists_of_parseObject hread
      exact ⟨ms, hms⟩
    · cases h
  · intro ms hms name l key value hmem hname hentry
    obtain ⟨vs, hvs, hsorts⟩ := exists_members hms h
    obtain ⟨front, back, rfl⟩ := List.append_of_mem hmem
    obtain ⟨before, _, v, behind, -, hkey, hv, -, rfl⟩ := Tree.members?_split hvs
    cases hname.symm.trans hkey
    obtain ⟨n, hn, rfl⟩ : ∃ n, l.number? = some n ∧ .number n = v := by
      simp only [Tree.value?] at hv
      exact Option.map_eq_some_iff.1 hv
    have hitem : (Item.member key (.number n)).key? = some key := by
      rw [Item.key?, not_blank_of_parse h hentry, if_neg Bool.false_ne_true]
    have hgiven := hsorts.accepted?_of_mem hentry (i := .member key (.number n)) (by simp) hitem
    rw [Item.accepted?, hitem] at hgiven
    cases hgiven
    exact Json.Literal.becomes hn

def singleText (l : Json.Literal) : String :=
  .ofList (['\x7b', '"', 'n', '"', ':', ' '] ++ l.chars ++ ['\x7d'])

theorem spelling_single (l : Json.Literal) :
    DocumentSpelling (.object [([.char 'n'], .number l)]) (singleText l).toList := by
  have hnone : Json.Blanks [] := Json.Reader.blanks_nil
  have hspace : Json.Blanks [' '] := ⟨List.forall_mem_singleton.2 rfl⟩
  have hname : Json.StringSpelling [.char 'n'] ['"', 'n', '"'] :=
    .string (.cons (.plain (by decide) (by decide) (by decide)) .nil)
  have hmembers := Json.PartSpelling.lastMember hnone hname hnone hspace (.number (l := l)) hnone
  have hdocument := DocumentSpelling.document hnone (.object hmembers) hnone
  rw [singleText, String.toList_ofList]
  simpa using hdocument

def billionLiteral : Json.Literal := .one (some (.nines 0))

def billionContents : Contents := ⟨[⟨"n", "1000000000.0"⟩], []⟩

theorem parse_billion : Format.json.parse (.ofString "T.en.json") (singleText billionLiteral) =
    .ok billionContents := by decide +kernel

theorem numbers_of_parse_billion :
    Format.json.parse (.ofString "T.en.json") (singleText billionLiteral) = .ok billionContents ∧
      (∃ ms, DocumentSpelling (.object ms) (singleText billionLiteral).toList) ∧
      ∀ ms, DocumentSpelling (.object ms) (singleText billionLiteral).toList →
        ∀ name l key value, (name, Tree.number l) ∈ ms → Mark.text? name = some key →
          ⟨key, value⟩ ∈ billionContents.entries → l.Becomes value :=
  ⟨parse_billion, numbers_of_parse parse_billion⟩

theorem exists_respelled_number : ¬∀ (path : Path) (text : String) (c : Contents)
    (ms : List (List Mark × Tree)) (name : List Mark) (l : Json.Literal) (key value : String),
      Format.json.parse path text = .ok c → DocumentSpelling (.object ms) text.toList →
        (name, Tree.number l) ∈ ms → Mark.text? name = some key → ⟨key, value⟩ ∈ c.entries →
          value = l.text := by
  intro h
  have hkept := h _ _ _ _ [.char 'n'] billionLiteral "n" "1000000000.0" parse_billion
    (spelling_single billionLiteral) List.mem_cons_self (by decide) List.mem_cons_self
  exact absurd hkept (by decide +kernel)

end Format

end Phrasebook
