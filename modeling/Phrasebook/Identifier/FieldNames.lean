import Std.Data.TreeSet
import Phrasebook.Identifier

namespace Phrasebook.Identifier

def base (key : String) : String :=
  if sanitize key ∈ suffixedKeywords then sanitize key ++ "_" else sanitize key

def numbered (name : String) (n : Nat) : String := name ++ "_" ++ toString n

/-- Of `used.size + 1` numbers one is free, so the search ends. -/
def fresh (used : Std.TreeSet String) (name : String) : String :=
  if name ∈ used then
    (((List.range' 2 (used.size + 1)).find? (numbered name · ∉ used)).map (numbered name)).getD name
  else name

def assign (used : Std.TreeSet String) : List String → List String
  | [] => []
  | key :: keys =>
    let name := fresh used (base key)
    name :: assign (used.insert name) keys

def fieldNames (keys : List String) : List String := (assign ∅ keys).map render

@[simp] theorem length_assign (used : Std.TreeSet String) (keys : List String) :
    (assign used keys).length = keys.length := by
  induction keys generalizing used with
  | nil => rfl
  | cons key keys ih => simp [assign, ih]

@[simp] theorem length_fieldNames (keys : List String) :
    (fieldNames keys).length = keys.length := by
  simp [fieldNames]

end Phrasebook.Identifier
