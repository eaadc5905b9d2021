import Phrasebook.Json.Fault
import Phrasebook.Json.Value
import Phrasebook.Text.Encoding

/-!
Reading JSON. Each reader takes the text that is left and returns a value with the text after it. A
failure tells how many bytes were still unread, from which its line and column follow. A fault found
by looking ahead is placed one byte further than one found by reading.
-/

namespace Phrasebook.Json

structure Failure where
  fault : Fault
  unread : Nat
  deriving DecidableEq

def Failure.here (fault : Fault) (cs : List Char) : Failure := ⟨fault, Text.Utf8.length cs⟩

/-- One byte past the place where the failing reader stands, or the end. -/
def Failure.ahead (fault : Fault) (cs : List Char) : Failure := ⟨fault, Text.Utf8.length cs - 1⟩

def Failure.locate (text : List Char) (f : Failure) : Problem :=
  let bytes := Text.Utf8.encode text
  let before := bytes.take (bytes.length - f.unread)
  ⟨f.fault, 1 + before.count 0x0A, (before.reverse.takeWhile (· != 0x0A)).length⟩

namespace Reader

abbrev Taken (α : Type) := α × List Char

def isSpace (c : Char) : Bool := c = ' ' || c = '\n' || c = '\t' || c = '\r'

def skipSpace (cs : List Char) : List Char := cs.dropWhile isSpace

def word : List Char → List Char → Except Failure (List Char)
  | [], cs => .ok cs
  | _ :: _, [] => .error (.ahead .endInValue [])
  | e :: es, c :: cs => if c = e then word es cs else .error (.ahead .expectedWord (c :: cs))

/-! Strings. -/

def hexCode (a b c d : Char) : Option Nat := do
  let a ← Text.hexValue? a
  let b ← Text.hexValue? b
  let c ← Text.hexValue? c
  let d ← Text.hexValue? d
  some (a * 4096 + b * 256 + c * 16 + d)

def hexEscape (cs : List Char) : Except Failure (Taken Nat) :=
  if Text.Utf8.length cs < 4 then .error (.ahead .endInString [])
  else
    match cs with
    | a :: b :: c :: d :: r =>
      match hexCode a b c d with
      | some n => .ok (n, r)
      | none => .error ⟨.invalidEscape, Text.Utf8.length cs - 4⟩
    | _ => .error ⟨.invalidEscape, Text.Utf8.length cs - 4⟩

def unicodeEscape (cs : List Char) : Except Failure (Taken Char) := do
  let (n, r) ← hexEscape cs
  if Encoding.isLowHalf n then .error (.here .loneSurrogate r)
  else if Encoding.isHighHalf n then
    match r with
    | [] => .error (.ahead .endInString [])
    | '\\' :: 'u' :: r =>
      let (m, r) ← hexEscape r
      if Encoding.isLowHalf m then .ok (Encoding.joinHalves n m, r)
      else .error (.here .loneSurrogate r)
    | ['\\'] => .error (.ahead .endInString [])
    | '\\' :: r => .error (.ahead .missingSurrogate r)
    | r => .error (.ahead .missingSurrogate r)
  else .ok (.ofNat n, r)

def escape : List Char → Except Failure (Taken Char)
  | [] => .error (.ahead .endInString [])
  | '"' :: r => .ok ('"', r)
  | '\\' :: r => .ok ('\\', r)
  | '/' :: r => .ok ('/', r)
  | 'b' :: r => .ok ('\x08', r)
  | 'f' :: r => .ok ('\x0c', r)
  | 'n' :: r => .ok ('\n', r)
  | 'r' :: r => .ok ('\r', r)
  | 't' :: r => .ok ('\t', r)
  | 'u' :: r => unicodeEscape r
  | c :: r => .error (.ahead .invalidEscape (c :: r))

/-- The content of a string whose opening quote has been read. Every step uses up a character, so as
much fuel as there are characters is enough. -/
def stringBody : Nat → List Char → Except Failure (Taken (List Char))
  | _, [] => .error (.ahead .endInString [])
  | 0, _ => .error (.ahead .endInString [])
  | fuel + 1, c :: r =>
    if c = '"' then .ok ([], r)
    else if c = '\\' then do
      let (e, r) ← escape r
      let (cs, r) ← stringBody fuel r
      .ok (e :: cs, r)
    else if c.toNat < 0x20 then .error (.ahead .controlCharacter (c :: r))
    else do
      let (cs, r) ← stringBody fuel r
      .ok (c :: cs, r)

def string (cs : List Char) : Except Failure (Taken String) := do
  let (content, r) ← stringBody cs.length cs
  .ok (.ofList content, r)

/-! Numbers. -/

def digitValue (c : Char) : Nat := c.toNat - 48

def digits (cs : List Char) : List Nat × List Char :=
  ((cs.takeWhile Char.isDigit).map digitValue, cs.dropWhile Char.isDigit)

def binary (negative : Bool) (significand : Nat) (exponent : Int) (r : List Char) :
    Except Failure (Taken Number) :=
  match Number.scale significand exponent with
  | some x => .ok (.float negative x, r)
  | none => .error (.here .numberOutOfRange r)

def exponentDigits (value : Nat) : List Char → Nat × Bool × List Char
  | [] => (value, true, [])
  | c :: r =>
    if c.isDigit then
      if value * 10 + digitValue c ≤ Nat.pow 2 31 - 1 then
        exponentDigits (value * 10 + digitValue c) r
      else (value, false, r)
    else (value, true, c :: r)

def exponent (negative : Bool) (significand : Nat) (start : Int) (cs : List Char) :
    Except Failure (Taken Number) :=
  let (down, cs) := match cs with
    | '+' :: r => (false, r)
    | '-' :: r => (true, r)
    | r => (false, r)
  match cs with
  | [] => .error (.ahead .endInValue [])
  | c :: r =>
    if c.isDigit then
      match exponentDigits 0 (c :: r) with
      | (value, true, r) =>
        binary negative significand (if down then start - value else start + value) r
      | (_, false, r) =>
        if significand ≠ 0 ∧ !down then .error (.here .numberOutOfRange r)
        else .ok (.float negative .zero, r.dropWhile Char.isDigit)
    else .error (.ahead .invalidNumber (c :: r))

def afterInteger (negative : Bool) (significand dropped : Nat) (cs : List Char) :
    Except Failure (Taken Number) :=
  match cs with
  | '.' :: r =>
    match digits r with
    | ([], []) => .error (.ahead .endInValue [])
    | ([], r) => .error (.ahead .invalidNumber r)
    | (ds, r) =>
      let (s, lost) := Number.absorb significand ds
      let start : Int := dropped - ((ds.length - lost : Nat) : Int)
      match r with
      | 'e' :: r => exponent negative s start r
      | 'E' :: r => exponent negative s start r
      | r => binary negative s start r
  | 'e' :: r => exponent negative significand dropped r
  | 'E' :: r => exponent negative significand dropped r
  | r =>
    if dropped = 0 then .ok (.ofInteger negative significand, r)
    else binary negative significand dropped r

def number (negative : Bool) : List Char → Except Failure (Taken Number)
  | [] => .error (.ahead .endInValue [])
  | '0' :: r =>
    if r.head?.any Char.isDigit then .error (.ahead .invalidNumber r)
    else afterInteger negative 0 0 r
  | c :: r =>
    if c.isDigit then
      let (ds, r) := digits (c :: r)
      let (s, lost) := Number.absorb 0 ds
      afterInteger negative s lost r
    else .error (.ahead .invalidNumber (c :: r))

/-! Values. `depth` is one more than the brackets that may still be opened. -/

def colon (cs : List Char) : Except Failure (List Char) :=
  match skipSpace cs with
  | [] => .error (.ahead .endInObject [])
  | ':' :: r => .ok r
  | r => .error (.ahead .expectedColon r)

def nextElement (first : Bool) (cs : List Char) : Except Failure (Taken Bool) :=
  match skipSpace cs with
  | [] => .error (.ahead .endInList [])
  | ']' :: r => .ok (false, r)
  | c :: r =>
    if first then .ok (true, c :: r)
    else if c = ',' then
      match skipSpace r with
      | [] => .error (.ahead .endInValue [])
      | ']' :: r => .error (.ahead .trailingComma (']' :: r))
      | r => .ok (true, r)
    else .error (.ahead .expectedListEnd (c :: r))

def nextMember (first : Bool) (cs : List Char) : Except Failure (Taken Bool) :=
  match skipSpace cs with
  | [] => .error (.ahead .endInObject [])
  | '\x7d' :: r => .ok (false, r)
  | c :: r =>
    if first then
      if c = '"' then .ok (true, r) else .error (.ahead .keyNotString (c :: r))
    else if c = ',' then
      match skipSpace r with
      | [] => .error (.ahead .endInValue [])
      | '"' :: r => .ok (true, r)
      | '\x7d' :: r => .error (.ahead .trailingComma ('\x7d' :: r))
      | r => .error (.ahead .keyNotString r)
    else .error (.ahead .expectedObjectEnd (c :: r))

mutual

def value : Nat → Nat → List Char → Except Failure (Taken Value)
  | 0, _, cs => .error (.ahead .expectedValue cs)
  | fuel + 1, depth, cs =>
    match skipSpace cs with
    | [] => .error (.ahead .endInValue [])
    | 'n' :: r => do
      let r ← word ['u', 'l', 'l'] r
      .ok (.null, r)
    | 't' :: r => do
      let r ← word ['r', 'u', 'e'] r
      .ok (.boolean true, r)
    | 'f' :: r => do
      let r ← word ['a', 'l', 's', 'e'] r
      .ok (.boolean false, r)
    | '-' :: r => do
      let (n, r) ← number true r
      .ok (.number n, r)
    | '"' :: r => do
      let (s, r) ← string r
      .ok (.string s, r)
    | '[' :: r =>
      if depth ≤ 1 then .error (.ahead .tooDeep ('[' :: r))
      else do
        let (vs, r) ← elements fuel (depth - 1) true r
        .ok (.array vs, r)
    | '\x7b' :: r =>
      if depth ≤ 1 then .error (.ahead .tooDeep ('\x7b' :: r))
      else do
        let (ms, r) ← members fuel (depth - 1) true r
        .ok (.object ms, r)
    | c :: r =>
      if c.isDigit then do
        let (n, r) ← number false (c :: r)
        .ok (.number n, r)
      else .error (.ahead .expectedValue (c :: r))

def elements : Nat → Nat → Bool → List Char → Except Failure (Taken (List Value))
  | 0, _, _, cs => .error (.ahead .expectedValue cs)
  | fuel + 1, depth, first, cs => do
    let (more, r) ← nextElement first cs
    if more then
      let (v, r) ← value fuel depth r
      let (vs, r) ← elements fuel depth false r
      .ok (v :: vs, r)
    else .ok ([], r)

def members : Nat → Nat → Bool → List Char → Except Failure (Taken (List (String × Value)))
  | 0, _, _, cs => .error (.ahead .expectedValue cs)
  | fuel + 1, depth, first, cs => do
    let (more, r) ← nextMember first cs
    if more then
      let (name, r) ← string r
      let r ← colon r
      let (v, r) ← value fuel depth r
      let (ms, r) ← members fuel depth false r
      .ok ((name, v) :: ms, r)
    else .ok ([], r)

end

def maxDepth : Nat := 128

def enough (cs : List Char) : Nat := 2 * cs.length + 2

def finish (cs : List Char) : Except Failure Unit :=
  match skipSpace cs with
  | [] => .ok ()
  | r => .error (.ahead .trailingCharacters r)

def document (cs : List Char) : Except Failure Value := do
  let (v, r) ← value (enough cs) maxDepth cs
  finish r
  .ok v

def wrongType (cs : List Char) : Except Failure (Taken Found) :=
  match cs with
  | 'n' :: r => do
    let r ← word ['u', 'l', 'l'] r
    .ok (.null, r)
  | 't' :: r => do
    let r ← word ['r', 'u', 'e'] r
    .ok (.boolean true, r)
  | 'f' :: r => do
    let r ← word ['a', 'l', 's', 'e'] r
    .ok (.boolean false, r)
  | '-' :: r => do
    let (n, r) ← number true r
    .ok (.number n, r)
  | '"' :: r => do
    let (s, r) ← string r
    .ok (.string s, r)
  | '[' :: r => .ok (.sequence, '[' :: r)
  | c :: r =>
    if c.isDigit then do
      let (n, r) ← number false (c :: r)
      .ok (.number n, r)
    else .error (.ahead .expectedValue (c :: r))
  | [] => .error (.ahead .endInValue [])

def objectDocument (cs : List Char) : Except Failure (List (String × Value)) :=
  match skipSpace cs with
  | '\x7b' :: r => do
    let (ms, r) ← members (enough cs) (maxDepth - 1) true r
    finish r
    .ok ms
  | r => do
    let (found, r) ← wrongType r
    .error (.here (.notAnObject found) r)

end Reader

def parse (text : List Char) : Except Problem Value :=
  (Reader.document text).mapError (Failure.locate text)

def parseObject (text : List Char) : Except Problem (List (String × Value)) :=
  (Reader.objectDocument text).mapError (Failure.locate text)

end Phrasebook.Json
