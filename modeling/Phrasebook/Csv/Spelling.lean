import Phrasebook.Csv

namespace Phrasebook.Csv

def isSpecial (c : Char) : Bool := c = ',' || c = '"' || isLineEnd c

def doubleQuote (c : Char) : List Char := if c = '"' then ['"', '"'] else [c]

inductive FieldSpelling : List Char → List Char → Prop
  | bare {cs} : (∀ c ∈ cs, isSpecial c = false) → FieldSpelling cs cs
  | quoted {cs} : FieldSpelling cs ('"' :: cs.flatMap doubleQuote ++ ['"'])

inductive LineEnd : List Char → Prop
  | feed : LineEnd ['\n']
  | returnFeed : LineEnd ['\r', '\n']

inductive PairSpelling : List Char × List Char → List Char → Prop
  | pair {k v a b} : FieldSpelling k a → FieldSpelling v b → PairSpelling (k, v) (a ++ ',' :: b)

inductive Spelling : List (List Char × List Char) → List Char → Prop
  | nil : Spelling [] []
  | last {p t} : PairSpelling p t → Spelling [p] t
  | cons {p ps t e u} :
      PairSpelling p t → LineEnd e → Spelling ps u → Spelling (p :: ps) (t ++ e ++ u)

end Phrasebook.Csv
