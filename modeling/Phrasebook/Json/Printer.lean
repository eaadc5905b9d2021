import Phrasebook.Json.Value
import Phrasebook.Text.Quoted

namespace Phrasebook.Json

def escapeChar (c : Char) : List Char :=
  if c = '"' then ['\\', '"']
  else if c = '\\' then ['\\', '\\']
  else if c = '\x08' then ['\\', 'b']
  else if c = '\x0c' then ['\\', 'f']
  else if c = '\n' then ['\\', 'n']
  else if c = '\r' then ['\\', 'r']
  else if c = '\t' then ['\\', 't']
  else if c.toNat < 0x20 then
    ['\\', 'u', '0', '0', Text.hexDigit (c.toNat / 16), Text.hexDigit (c.toNat % 16)]
  else [c]

def stringChars (cs : List Char) : List Char := '"' :: cs.flatMap escapeChar ++ ['"']

def printString (s : String) : String := .ofList (stringChars s.toList)

def printTexts (members : List (String × String)) : String :=
  if members.isEmpty then "\x7b\x7d"
  else
    let lines := members.map fun m => "  " ++ printString m.1 ++ ": " ++ printString m.2
    "\x7b\n" ++ ",\n".intercalate lines ++ "\n\x7d"

mutual

def Value.compact : Value → String
  | .null => "null"
  | .boolean b => toString b
  | .number n => n.text
  | .string s => printString s
  | .array vs => "[" ++ ",".intercalate (compactList vs) ++ "]"
  | .object ms => "\x7b" ++ ",".intercalate (compactMembers ms) ++ "\x7d"

def compactList : List Value → List String
  | [] => []
  | v :: vs => v.compact :: compactList vs

def compactMembers : List (String × Value) → List String
  | [] => []
  | (name, v) :: ms => (printString name ++ ":" ++ v.compact) :: compactMembers ms

end

end Phrasebook.Json
