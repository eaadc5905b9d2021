import Phrasebook.Json.Number
import Phrasebook.Text.Quoted

namespace Phrasebook.Json

inductive Found
  | null
  | boolean : Bool → Found
  | number : Number → Found
  | string : String → Found
  | sequence
  deriving DecidableEq

def Found.text : Found → String
  | null => "null"
  | boolean b => s!"boolean `{b}`"
  | number (.natural n) => s!"integer `{n}`"
  | number (.negative n) => s!"integer `-{n}`"
  | number (.float s x) => s!"floating point `{Number.floatText s x}`"
  | string s => "string " ++ Text.quote s
  | sequence => "sequence"

inductive Fault
  | endInValue
  | endInList
  | endInObject
  | endInString
  | expectedColon
  | expectedListEnd
  | expectedObjectEnd
  | expectedWord
  | expectedValue
  | invalidEscape
  | invalidNumber
  | numberOutOfRange
  | controlCharacter
  | keyNotString
  | loneSurrogate
  | missingSurrogate
  | trailingComma
  | trailingCharacters
  | tooDeep
  | notAnObject : Found → Fault
  | other : String → Fault
  deriving DecidableEq

def Fault.text : Fault → String
  | endInValue => "EOF while parsing a value"
  | endInList => "EOF while parsing a list"
  | endInObject => "EOF while parsing an object"
  | endInString => "EOF while parsing a string"
  | expectedColon => "expected `:`"
  | expectedListEnd => "expected `,` or `]`"
  | expectedObjectEnd => "expected `,` or `\x7d`"
  | expectedWord => "expected ident"
  | expectedValue => "expected value"
  | invalidEscape => "invalid escape"
  | invalidNumber => "invalid number"
  | numberOutOfRange => "number out of range"
  | controlCharacter => "control character (\\u0000-\\u001F) found while parsing a string"
  | keyNotString => "key must be a string"
  | loneSurrogate => "lone leading surrogate in hex escape"
  | missingSurrogate => "unexpected end of hex escape"
  | trailingComma => "trailing comma"
  | trailingCharacters => "trailing characters"
  | tooDeep => "recursion limit exceeded"
  | notAnObject found => s!"invalid type: {found.text}, expected an object of text resource members"
  | other text => text

/-- A fault and its place. Line zero means that no place is known. -/
structure Problem where
  fault : Fault
  line : Nat
  column : Nat
  deriving DecidableEq

namespace Problem

def message (p : Problem) : String :=
  if p.line = 0 then p.fault.text else s!"{p.fault.text} at line {p.line} column {p.column}"

def line? (p : Problem) : Option Nat := if p.line = 0 then none else some p.line

def readNumber (cs : List Char) : Option (Nat × List Char) :=
  match cs.takeWhile Char.isDigit with
  | [] => none
  | ds => some (ds.foldl (fun n d => n * 10 + (d.toNat - 48)) 0, cs.dropWhile Char.isDigit)

def readPlace (cs : List Char) : Option (Nat × Nat) := do
  let r ← " at line ".toList.isPrefixOf? cs
  let (line, r) ← readNumber r
  let r ← " column ".toList.isPrefixOf? r
  let (column, r) ← readNumber r
  if r = [] ∧ line < Nat.pow 2 64 ∧ column < Nat.pow 2 64 then some (line, column) else none

def lastPlace : List Char → Option (List Char × List Char)
  | [] => none
  | c :: cs =>
    match lastPlace cs with
    | some (before, r) => some (c :: before, r)
    | none => if (" at line ".toList).isPrefixOf (c :: cs) then some ([], c :: cs) else none

def ofText (text : String) : Problem :=
  match lastPlace text.toList with
  | some (before, r) =>
    match readPlace r with
    | some (line, column) => ⟨.other (.ofList before), line, column⟩
    | none => ⟨.other text, 0, 0⟩
  | none => ⟨.other text, 0, 0⟩

end Problem

end Phrasebook.Json
