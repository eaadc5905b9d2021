import Phrasebook.Json.Reader

namespace Phrasebook.Json

inductive ShortEscape : Char → Char → Prop
  | quote : ShortEscape '"' '"'
  | backslash : ShortEscape '\\' '\\'
  | slash : ShortEscape '/' '/'
  | backspace : ShortEscape '\x08' 'b'
  | formFeed : ShortEscape '\x0c' 'f'
  | lineFeed : ShortEscape '\n' 'n'
  | carriageReturn : ShortEscape '\r' 'r'
  | tab : ShortEscape '\t' 't'

inductive HexSpelling : Nat → List Char → Prop
  | four {a b c d n} : Reader.hexCode a b c d = some n → HexSpelling n [a, b, c, d]

inductive CharSpelling : Char → List Char → Prop
  | plain {c} : 0x20 ≤ c.toNat → c ≠ '"' → c ≠ '\\' → CharSpelling c [c]
  | short {c e} : ShortEscape c e → CharSpelling c ['\\', e]
  | unit {c h} : HexSpelling c.toNat h → CharSpelling c ('\\' :: 'u' :: h)
  | pair {c m n g h} : Encoding.unitsOfChar c = [m, n] → HexSpelling m g → HexSpelling n h →
      CharSpelling c ('\\' :: 'u' :: g ++ '\\' :: 'u' :: h)

inductive BodySpelling : List Char → List Char → Prop
  | nil : BodySpelling [] []
  | cons {c cs s t} : CharSpelling c s → BodySpelling cs t → BodySpelling (c :: cs) (s ++ t)

inductive TextSpelling : List Char → List Char → Prop
  | text {cs t} : BodySpelling cs t → TextSpelling cs ('"' :: t ++ ['"'])

inductive Blanks : List Char → Prop
  | blanks {cs} : (∀ c ∈ cs, Reader.isSpace c = true) → Blanks cs

inductive MemberSpelling : List Char × List Char → List Char → Prop
  | pair {k v s t a b} : TextSpelling k s → TextSpelling v t → Blanks a → Blanks b →
      MemberSpelling (k, v) (s ++ a ++ ':' :: b ++ t)

inductive MembersSpelling : List (List Char × List Char) → List Char → Prop
  | last {m a s b} : Blanks a → MemberSpelling m s → Blanks b → MembersSpelling [m] (a ++ s ++ b)
  | cons {m ms a s b t} : Blanks a → MemberSpelling m s → Blanks b → MembersSpelling ms t →
      MembersSpelling (m :: ms) (a ++ s ++ b ++ ',' :: t)

inductive ObjectSpelling : List (List Char × List Char) → List Char → Prop
  | empty {a b c} : Blanks a → Blanks b → Blanks c →
      ObjectSpelling [] (a ++ '\x7b' :: b ++ '\x7d' :: c)
  | members {ms a s b} : Blanks a → MembersSpelling ms s → Blanks b →
      ObjectSpelling ms (a ++ '\x7b' :: s ++ '\x7d' :: b)

end Phrasebook.Json
