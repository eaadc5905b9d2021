import Phrasebook.Json.Number

namespace Phrasebook.Json

inductive Value
  | null
  | boolean : Bool → Value
  | number : Number → Value
  | string : String → Value
  | array : List Value → Value
  | object : List (String × Value) → Value

namespace Value

def scalarText? : Value → Option String
  | boolean b => some (toString b)
  | number n => some n.text
  | string s => some s
  | _ => none

def kind : Value → String
  | null => "null"
  | boolean _ => "a boolean"
  | number _ => "a number"
  | string _ => "a string"
  | array _ => "an array"
  | object _ => "an object"

end Value

end Phrasebook.Json
