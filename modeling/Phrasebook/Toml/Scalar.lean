import Phrasebook.Toml.Node

namespace Phrasebook.Toml.Reader

abbrev Taken (α : Type) := α × List Char

def isSpace (c : Char) : Bool := c = ' ' || c = '\t'

def skipSpace (cs : List Char) : List Char := cs.dropWhile isSpace

def newline? : List Char → Option (List Char)
  | '\n' :: r => some r
  | '\r' :: '\n' :: r => some r
  | _ => none

theorem length_newline {cs r : List Char} (h : newline? cs = some r) : r.length < cs.length := by
  unfold newline? at h
  split at h
  · obtain rfl := Option.some.inj h
    exact Nat.lt_succ_self _
  · obtain rfl := Option.some.inj h
    exact Nat.lt_succ_of_lt (Nat.lt_succ_self _)
  · contradiction

def isPlain (c : Char) : Bool := c = '\t' || (0x20 ≤ c.toNat && c.toNat ≠ 0x7F)

/-! Strings. -/

def codePoint? (count : Nat) (cs : List Char) : Option (Taken Char) := do
  let digits := cs.take count
  if digits.length ≠ count then none
  else
    let values ← digits.mapM Text.hexValue?
    let n := values.foldl (fun n d => n * 16 + d) 0
    if n.isValidChar then some (Char.ofNat n, cs.drop count) else none

def escape? : List Char → Option (Taken Char)
  | 'b' :: r => some ('\x08', r)
  | 'f' :: r => some ('\x0c', r)
  | 'n' :: r => some ('\n', r)
  | 'r' :: r => some ('\r', r)
  | 't' :: r => some ('\t', r)
  | '"' :: r => some ('"', r)
  | '\\' :: r => some ('\\', r)
  | 'u' :: r => codePoint? 4 r
  | 'U' :: r => codePoint? 8 r
  | _ => none

def consChar (c : Char) (p : List Char × List Char) : List Char × List Char := (c :: p.1, p.2)

def prependChars (cs : List Char) (p : List Char × List Char) : List Char × List Char :=
  (cs ++ p.1, p.2)

def lineBody (quote : Char) (escapes : Bool) : Nat → List Char → Option (Taken (List Char))
  | 0, _ => none
  | _, [] => none
  | fuel + 1, c :: r =>
    if c = quote then some ([], r)
    else if escapes ∧ c = '\\' then do
      let (e, r) ← escape? r
      (lineBody quote escapes fuel r).map (consChar e)
    else if isPlain c then (lineBody quote escapes fuel r).map (consChar c)
    else none

def lineJoin? (cs : List Char) : Option (List Char) :=
  (newline? (skipSpace cs)).map fun r =>
    r.dropWhile fun c => isSpace c || c = '\n' || c = '\r'

def hasLoneReturn : List Char → Bool
  | [] => false
  | '\r' :: '\n' :: r => hasLoneReturn r
  | '\r' :: _ => true
  | _ :: r => hasLoneReturn r

/-- The content of a string of several lines, whose opening quotes have been read. Up to two quotes
may stand before the three that close it. -/
def blockBody (quote : Char) (escapes : Bool) : Nat → List Char → Option (Taken (List Char))
  | 0, _ => none
  | _, [] => none
  | fuel + 1, c :: r =>
    if c = quote then
      let run := (c :: r).takeWhile (· = quote)
      let rest := (c :: r).dropWhile (· = quote)
      if run.length < 3 then (blockBody quote escapes fuel rest).map (prependChars run)
      else if run.length ≤ 5 then some (run.drop 3, rest)
      else none
    else if escapes ∧ c = '\\' then
      match lineJoin? r with
      | some rest =>
        let gap := (skipSpace r).take ((skipSpace r).length - rest.length)
        if hasLoneReturn gap then none else blockBody quote escapes fuel rest
      | none => do
        let (e, r) ← escape? r
        (blockBody quote escapes fuel r).map (consChar e)
    else
      match newline? (c :: r) with
      | some r => (blockBody quote escapes fuel r).map (consChar '\n')
      | none => if isPlain c then (blockBody quote escapes fuel r).map (consChar c) else none

def blockString (quote : Char) (escapes : Bool) (cs : List Char) : Option (Taken (List Char)) :=
  let body := (newline? cs).getD cs
  blockBody quote escapes (body.length + 1) body

def lineString (quote : Char) (escapes : Bool) (cs : List Char) : Option (Taken (List Char)) :=
  lineBody quote escapes (cs.length + 1) cs

def string? : List Char → Option (Taken (List Char))
  | '"' :: '"' :: '"' :: r => blockString '"' true r
  | '"' :: r => lineString '"' true r
  | '\'' :: '\'' :: '\'' :: r => blockString '\'' false r
  | '\'' :: r => lineString '\'' false r
  | _ => none

/-! Numbers. Underscores stand between digits only. -/

def digitValue (c : Char) : Nat := (Text.hexValue? c).getD 0

def digits? (base : Nat) : List Char → Option (Taken (List Nat))
  | [] => none
  | c :: r =>
    if (Text.hexValue? c).any (· < base) then
      match r with
      | '_' :: r' => (digits? base r').map fun p => (digitValue c :: p.1, p.2)
      | r' =>
        match digits? base r' with
        | some p => some (digitValue c :: p.1, p.2)
        | none => some ([digitValue c], r')
    else none

def ofDigits (base : Nat) (ds : List Nat) : Nat := ds.foldl (fun n d => n * base + d) 0

def sign : List Char → Bool × List Char
  | '-' :: r => (true, r)
  | '+' :: r => (false, r)
  | r => (false, r)

def decimal? : List Char → Option (Taken (List Nat))
  | '0' :: r => some ([0], r)
  | r => digits? 10 r

def fraction? : List Char → Option (Taken (List Nat))
  | '.' :: r => digits? 10 r
  | r => some ([], r)

def exponent? : List Char → Option (Taken (Option Int))
  | [] => some (none, [])
  | c :: r =>
    if c = 'e' ∨ c = 'E' then
      let (negative, r) := sign r
      (digits? 10 r).map fun (ds, r) =>
        let n : Int := ofDigits 10 ds
        (some (if negative then -n else n), r)
    else some (none, c :: r)

/-- The nearest number to `digits * 10 ^ scale`, with far exponents decided by size alone. -/
def nearest (negative : Bool) (digits : List Nat) (scale : Int) : Number :=
  let n := ofDigits 10 digits
  if n = 0 ∨ scale + digits.length < -400 then .finite negative .zero
  else if 400 < scale then .infinite negative
  else
    match Decimal.Binary64.ofDecimal n scale with
    | some x => .finite negative x
    | none => .infinite negative

def decimalNumber? (cs : List Char) : Option (Taken Node) := do
  let (negative, r) := sign cs
  let (whole, r) ← decimal? r
  let (places, r) ← fraction? r
  let (exponent, r) ← exponent? r
  if places = [] ∧ exponent = none then
    let n := ofDigits 10 whole
    if n < Nat.pow 2 63 ∨ (negative ∧ n = Nat.pow 2 63) then
      some (.integer (if negative then -n else n), r)
    else none
  else
    match nearest negative (whole ++ places) (exponent.getD 0 - places.length) with
    | .infinite false => none
    | x => some (.float x, r)

def radixNumber? (base : Nat) (cs : List Char) : Option (Taken Node) := do
  let (ds, r) ← digits? base cs
  if ofDigits base ds < Nat.pow 2 63 then some (.integer (ofDigits base ds), r) else none

def specialNumber? (cs : List Char) : Option (Taken Node) :=
  let (negative, r) := sign cs
  match r with
  | 'i' :: 'n' :: 'f' :: r => some (.float (.infinite negative), r)
  | 'n' :: 'a' :: 'n' :: r => some (.float .notANumber, r)
  | _ => none

def number? (cs : List Char) : Option (Taken Node) :=
  match cs with
  | '0' :: 'x' :: r => radixNumber? 16 r
  | '0' :: 'o' :: r => radixNumber? 8 r
  | '0' :: 'b' :: r => radixNumber? 2 r
  | _ => specialNumber? cs <|> decimalNumber? cs

/-! Dates and times. -/

def fixed? (count least greatest : Nat) (cs : List Char) : Option (Taken Nat) :=
  let ds := cs.take count
  let n := ofDigits 10 (ds.map digitValue)
  if ds.length = count ∧ ds.all Char.isDigit ∧ least ≤ n ∧ n ≤ greatest then some (n, cs.drop count)
  else none

def lit? (c : Char) : List Char → Option (List Char)
  | [] => none
  | d :: r => if d = c then some r else none

def daysIn (year month : Nat) : Nat :=
  if month = 2 then
    if year % 4 = 0 ∧ (year % 100 ≠ 0 ∨ year % 400 = 0) then 29 else 28
  else if month = 4 ∨ month = 6 ∨ month = 9 ∨ month = 11 then 30
  else 31

def date? (cs : List Char) : Option (List Char) := do
  let (year, r) ← fixed? 4 0 9999 cs
  let r ← lit? '-' r
  let (month, r) ← fixed? 2 1 12 r
  let r ← lit? '-' r
  let (_, r) ← fixed? 2 1 (daysIn year month) r
  some r

def secondFraction? : List Char → Option (List Char)
  | '.' :: c :: r => if c.isDigit then some (r.dropWhile Char.isDigit) else none
  | ['.'] => none
  | r => some r

def time? (cs : List Char) : Option (List Char) := do
  let (_, r) ← fixed? 2 0 23 cs
  let r ← lit? ':' r
  let (_, r) ← fixed? 2 0 59 r
  let r ← lit? ':' r
  let (_, r) ← fixed? 2 0 60 r
  secondFraction? r

def offset? : List Char → Option (List Char)
  | [] => some []
  | c :: r =>
    if c = 'Z' ∨ c = 'z' then some r
    else if c = '+' ∨ c = '-' then do
      let (_, r) ← fixed? 2 0 23 r
      let r ← lit? ':' r
      let (_, r) ← fixed? 2 0 59 r
      some r
    else some (c :: r)

def timeAfterDate? : List Char → Option (List Char)
  | [] => some []
  | c :: r =>
    if c = 'T' ∨ c = 't' ∨ c = ' ' then
      if (fixed? 2 0 23 r).any fun p => p.2.head? = some ':' then (time? r).bind offset?
      else some (c :: r)
    else some (c :: r)

def datetime? (cs : List Char) : Option (List Char) := ((date? cs).bind timeAfterDate?) <|> time? cs

/-! Values without parts. -/

def boolean? (cs : List Char) : Option (Taken Bool) :=
  ("true".toList.isPrefixOf? cs).map ((true, ·)) <|>
    ("false".toList.isPrefixOf? cs).map ((false, ·))

def scalar? (cs : List Char) : Option (Taken Node) :=
  (string? cs).map (fun p => (.string (.ofList p.1), p.2)) <|>
    (boolean? cs).map (fun p => (.boolean p.1, p.2)) <|>
    (datetime? cs).map ((.datetime, ·)) <|> number? cs

end Phrasebook.Toml.Reader
