import Phrasebook.Language.Choice

namespace Phrasebook

structure Table where
  typeName : String
  nameSpace : Option String
  fallbackLanguage : String
  languages : List String
  keys : List String
  values : List (List String)
  deriving DecidableEq

namespace Table

def rowFor (t : Table) (language : String) : List String :=
  let i := (Language.choose language t.languages t.fallbackLanguage).getD 0
  t.values[i]?.getD []

def bind? (count : Nat) (row : List String) : Option (List String) :=
  if count ≤ row.length then some (row.take count) else none

def lookup (t : Table) (language key : String) : Option String := do
  let i ← t.keys.idxOf? key
  (t.rowFor language)[i]?

end Table

end Phrasebook
