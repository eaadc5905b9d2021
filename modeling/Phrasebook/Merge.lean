import Phrasebook.Contents
import Phrasebook.Dict

namespace Phrasebook

structure Merged where
  fallbackLanguage : String
  keys : List String
  /-- For each language a row of texts along the keys. -/
  values : Dict (List String)

namespace Merged

def languages (m : Merged) : List String := m.values.keys

def value? (m : Merged) (language key : String) : Option String := do
  let i ← m.keys.idxOf? key
  let row ← m.values.get? language
  row[i]?

def textOf (entries : List Entry) (key : String) : Option String :=
  (entries.findRev? (·.key = key)).map (·.value)

def newKeys (known : List String) : List String → List String
  | [] => []
  | k :: ks => if k ∈ known then newKeys known ks else k :: newKeys (k :: known) ks

def keysOf (entries : List Entry) : List String := entries.map (·.key)

def mergedKeys (fallback : List Entry) (others : List (List Entry)) : List String :=
  keysOf fallback ++ newKeys (keysOf fallback) (others.flatMap keysOf)

def cell (fallback entries : List Entry) (key : String) : String :=
  (textOf entries key <|> textOf fallback key).getD ""

def warning? (typeName language : String) (fallback entries : List Entry) (key : String) :
    Option Diagnostic :=
  if (textOf entries key).isSome then none
  else if (textOf fallback key).isSome then some (.fallbackSubstituted typeName language key)
  else some (.missingFallbackKey typeName language key)

end Merged

open Merged in
def merge (typeName : String) (parsed : Dict (List Entry)) (fallbackLanguage : String) :
    Except Error (Merged × List Diagnostic) :=
  match parsed.get? fallbackLanguage with
  | none => .error (.missingFallback typeName fallbackLanguage)
  | some fallback =>
    let others := (parsed.erase fallbackLanguage).values
    let keys := mergedKeys fallback others
    let row (_ : String) (entries : List Entry) := keys.map (cell fallback entries)
    let warnings := parsed.toList.flatMap fun p =>
      keys.filterMap (warning? typeName p.1 fallback p.2)
    .ok (⟨fallbackLanguage, keys, parsed.mapValues row⟩, warnings)

end Phrasebook
