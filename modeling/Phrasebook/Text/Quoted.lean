import Phrasebook.Text.Hidden
import Phrasebook.Text.Utf8

namespace Phrasebook.Text

def hexDigit (n : Nat) : Char := .ofNat (if n < 10 then 0x30 + n else 0x57 + n)

def hexValue? (c : Char) : Option Nat :=
  if '0' ≤ c ∧ c ≤ '9' then some (c.toNat - 0x30)
  else if 'a' ≤ c ∧ c ≤ 'f' then some (c.toNat - 0x57)
  else if 'A' ≤ c ∧ c ≤ 'F' then some (c.toNat - 0x37)
  else none

def hexPlaces (n : Nat) : List Nat :=
  [n / 0x100000 % 16, n / 0x10000 % 16, n / 0x1000 % 16, n / 0x100 % 16, n / 0x10 % 16, n % 16]

def hexText (n : Nat) : List Char :=
  match (hexPlaces n).dropWhile (· == 0) with
  | [] => ['0']
  | ds => ds.map hexDigit

namespace Quoted

def quoteChar (c : Char) : List Char :=
  if c = '\x00' then ['\\', '0']
  else if c = '\t' then ['\\', 't']
  else if c = '\r' then ['\\', 'r']
  else if c = '\n' then ['\\', 'n']
  else if c = '"' then ['\\', '"']
  else if c = '\\' then ['\\', '\\']
  else if isHidden c then ['\\', 'u', '\x7b'] ++ hexText c.toNat ++ ['\x7d']
  else [c]

def quoteChars (cs : List Char) : List Char := '"' :: cs.flatMap quoteChar ++ ['"']

def readCode (value digits : Nat) : List Char → Option (Char × List Char)
  | [] => none
  | c :: r =>
    if c = '\x7d' then
      if value.isValidChar ∧ digits ≠ 0 then some (.ofNat value, r) else none
    else if c = '_' then
      if digits = 0 then none else readCode value digits r
    else
      match hexValue? c with
      | some d => if digits < 6 then readCode (value * 16 + d) (digits + 1) r else none
      | none => none

theorem length_readCode {value digits : Nat} {cs r : List Char} {c : Char}
    (h : readCode value digits cs = some (c, r)) : r.length < cs.length := by
  induction cs generalizing value digits with
  | nil => simp [readCode] at h
  | cons x cs ih =>
    simp only [readCode] at h
    split at h
    · split at h
      · simp_all
      · simp at h
    · split at h
      · split at h
        · simp at h
        · exact Nat.lt_succ_of_lt (ih h)
      · split at h
        · split at h
          · exact Nat.lt_succ_of_lt (ih h)
          · simp at h
        · simp at h

def isLiteralSpace (c : Char) : Bool := c = ' ' || c = '\t' || c = '\n' || c = '\r'

/-- What a backslash and the text after it stand for. A backslash at the end of a line stands for
nothing and swallows the blanks that follow. -/
def readEscape : List Char → Option (Option Char × List Char)
  | '0' :: r => some (some '\x00', r)
  | 't' :: r => some (some '\t', r)
  | 'r' :: r => some (some '\r', r)
  | 'n' :: r => some (some '\n', r)
  | '"' :: r => some (some '"', r)
  | '\'' :: r => some (some '\'', r)
  | '\\' :: r => some (some '\\', r)
  | '\n' :: r => some (none, r.dropWhile isLiteralSpace)
  | 'x' :: a :: b :: r =>
    match hexValue? a, hexValue? b with
    | some m, some n => if m < 8 then some (some (.ofNat (m * 16 + n)), r) else none
    | _, _ => none
  | 'u' :: '\x7b' :: r => (readCode 0 0 r).map fun p => (some p.1, p.2)
  | _ => none

theorem length_readEscape {cs r : List Char} {c : Option Char}
    (h : readEscape cs = some (c, r)) : r.length < cs.length := by
  unfold readEscape at h
  split at h
  case h_8 r' =>
    simp only [Option.some.injEq, Prod.mk.injEq] at h
    rw [← h.2]
    exact Nat.lt_succ_of_le (List.dropWhile_suffix _).length_le
  case h_9 a b r' =>
    split at h
    · split at h
      · simp only [Option.some.injEq, Prod.mk.injEq] at h
        simp only [← h.2, List.length_cons]
        omega
      · simp at h
    · simp at h
  case h_10 r' =>
    obtain ⟨p, hp, h⟩ := Option.map_eq_some_iff.1 h
    simp only [Prod.mk.injEq] at h
    have := length_readCode hp
    simp only [← h.2, List.length_cons]
    omega
  case h_11 => simp at h
  all_goals
    simp only [Option.some.injEq, Prod.mk.injEq] at h
    simp [← h.2]

def readBody : List Char → Option (List Char × List Char)
  | [] => none
  | c :: r =>
    if c = '"' then some ([], r)
    else if c = '\\' then
      match _h : readEscape r with
      | some (e, r') => (readBody r').map fun p => (e.toList ++ p.1, p.2)
      | none => none
    else (readBody r).map fun p => (c :: p.1, p.2)
termination_by cs => cs.length
decreasing_by
  · have := length_readEscape _h
    simp only [List.length_cons]
    omega
  · simp

theorem length_readBody {cs s r : List Char} (h : readBody cs = some (s, r)) :
    r.length < cs.length := by
  fun_induction readBody cs generalizing s with
  | case1 => simp at h
  | case2 => simp_all
  | case3 r' e r'' he _ ih =>
    obtain ⟨p, hp, hs⟩ := Option.map_eq_some_iff.1 h
    obtain ⟨_, rfl⟩ := Prod.mk.inj hs
    have := ih hp
    have := length_readEscape he
    simp only [List.length_cons]
    omega
  | case4 => simp at h
  | case5 c r' _ _ ih =>
    obtain ⟨p, hp, hs⟩ := Option.map_eq_some_iff.1 h
    obtain ⟨_, rfl⟩ := Prod.mk.inj hs
    have := ih hp
    simp only [List.length_cons]
    omega

def quoteBytes : List UInt8 → List Char
  | [] => []
  | b :: bs =>
    match _h : Utf8.head b bs with
    | .char c r => quoteChar c ++ quoteBytes r
    | .broken r =>
      ((b :: bs).take (bs.length + 1 - r.length)).flatMap strayByte ++ quoteBytes r
termination_by bs => bs.length
decreasing_by
  all_goals
    have := Utf8.length_head_rest b bs
    rw [_h] at this
    simp only [Utf8.Head.rest, List.length_cons] at *
    omega
where
  strayByte (b : UInt8) : List Char :=
    ['\\', 'x', (hexDigit (b.toNat / 16)).toUpper, (hexDigit (b.toNat % 16)).toUpper]

end Quoted

def quote (s : String) : String := .ofList (Quoted.quoteChars s.toList)

def readQuoted : List Char → Option (String × List Char)
  | '"' :: r => (Quoted.readBody r).map fun p => (.ofList p.1, p.2)
  | _ => none

theorem length_readQuoted {cs r : List Char} {s : String} (h : readQuoted cs = some (s, r)) :
    r.length < cs.length := by
  unfold readQuoted at h
  split at h
  · obtain ⟨p, hp, hs⟩ := Option.map_eq_some_iff.1 h
    obtain ⟨_, rfl⟩ := Prod.mk.inj hs
    exact Nat.lt_succ_of_lt (Quoted.length_readBody hp)
  · simp at h

end Phrasebook.Text
