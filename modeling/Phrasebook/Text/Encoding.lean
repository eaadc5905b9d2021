import Phrasebook.Text.Blank
import Phrasebook.Text.Utf8

/-!
The character encodings of text files. Decoding refuses malformed input instead of replacing it, and
a byte-order mark at the start of the content takes precedence over the encoding that was declared.
-/

namespace Phrasebook

/-- A decoder by its table. A row tells for a state and a byte the next state and the characters
that are read, and a byte without a row is malformed. The first state is zero. -/
structure Decoder where
  rows : List ((Nat × UInt8) × Nat × List Char)
  /-- The states in which content may end. -/
  ends : List Nat
  deriving DecidableEq, Repr

def Decoder.decodeFrom (d : Decoder) (state : Nat) : List UInt8 → Option (List Char)
  | [] => if state ∈ d.ends then some [] else none
  | b :: bs =>
    (d.rows.lookup (state, b)).bind fun row => (d.decodeFrom row.1 bs).map (row.2 ++ ·)

inductive Encoding
  | utf8
  | utf16le
  | utf16be
  | windows1252
  /-- Any other one, by its name and its decoder. -/
  | other : String → Decoder → Encoding
  deriving DecidableEq, Repr

namespace Encoding

def name : Encoding → String
  | utf8 => "UTF-8"
  | utf16le => "UTF-16LE"
  | utf16be => "UTF-16BE"
  | windows1252 => "windows-1252"
  | other name _ => name

def ofLabel? (label : String) : Option Encoding :=
  match Text.lowerAscii label with
  | "utf-8" | "utf8" => some utf8
  | "utf-16le" => some utf16le
  | "utf-16be" => some utf16be
  | "windows-1252" | "latin1" => some windows1252
  | _ => none

def mark : Encoding → List UInt8
  | utf8 => [0xEF, 0xBB, 0xBF]
  | utf16le => [0xFF, 0xFE]
  | utf16be => [0xFE, 0xFF]
  | windows1252 | other _ _ => []

def announced? : List UInt8 → Option (Encoding × List UInt8)
  | 0xEF :: 0xBB :: 0xBF :: bs => some (utf8, bs)
  | 0xFF :: 0xFE :: bs => some (utf16le, bs)
  | 0xFE :: 0xFF :: bs => some (utf16be, bs)
  | _ => none

def effective (e : Encoding) (bs : List UInt8) : Encoding × List UInt8 :=
  (announced? bs).getD (e, bs)

def joinUnit (bigEndian : Bool) (a b : UInt8) : Nat :=
  if bigEndian then a.toNat * 256 + b.toNat else b.toNat * 256 + a.toNat

def splitUnit (bigEndian : Bool) (n : Nat) : List UInt8 :=
  if bigEndian then [.ofNat (n / 256), .ofNat (n % 256)] else [.ofNat (n % 256), .ofNat (n / 256)]

def units (bigEndian : Bool) : List UInt8 → Option (List Nat)
  | [] => some []
  | [_] => none
  | a :: b :: bs => (units bigEndian bs).map (joinUnit bigEndian a b :: ·)

def isHighHalf (n : Nat) : Bool := 0xD800 ≤ n && n ≤ 0xDBFF

def isLowHalf (n : Nat) : Bool := 0xDC00 ≤ n && n ≤ 0xDFFF

def joinHalves (high low : Nat) : Char :=
  .ofNat (0x10000 + (high - 0xD800) * 0x400 + (low - 0xDC00))

/-- Halves of a pair stand together, the high one first, and nowhere else. -/
def charsOfUnits : List Nat → Option (List Char)
  | [] => some []
  | [n] => if isHighHalf n || isLowHalf n then none else some [.ofNat n]
  | n :: m :: r =>
    if isHighHalf n then
      if isLowHalf m then (charsOfUnits r).map (joinHalves n m :: ·) else none
    else if isLowHalf n then none
    else (charsOfUnits (m :: r)).map (.ofNat n :: ·)

def unitsOfChar (c : Char) : List Nat :=
  if c.toNat < 0x10000 then [c.toNat]
  else [0xD800 + (c.toNat - 0x10000) / 0x400, 0xDC00 + (c.toNat - 0x10000) % 0x400]

def windowsUpper : List Nat :=
  [0x20AC, 0x81, 0x201A, 0x192, 0x201E, 0x2026, 0x2020, 0x2021, 0x2C6, 0x2030, 0x160, 0x2039, 0x152,
    0x8D, 0x17D, 0x8F, 0x90, 0x2018, 0x2019, 0x201C, 0x201D, 0x2022, 0x2013, 0x2014, 0x2DC, 0x2122,
    0x161, 0x203A, 0x153, 0x9D, 0x17E, 0x178]

def windowsChar (b : UInt8) : Char :=
  .ofNat (if 0x80 ≤ b && b < 0xA0 then windowsUpper.getD (b.toNat - 0x80) 0 else b.toNat)

def decodeChars : Encoding → List UInt8 → Option (List Char)
  | utf8, bs => Text.Utf8.decode bs
  | utf16le, bs => (units false bs).bind charsOfUnits
  | utf16be, bs => (units true bs).bind charsOfUnits
  | windows1252, bs => some (bs.map windowsChar)
  | other _ decoder, bs => decoder.decodeFrom 0 bs

def decode? (e : Encoding) (bs : List UInt8) : Option String := (e.decodeChars bs).map .ofList

def encodeChars? : Encoding → List Char → Option (List UInt8)
  | utf8, cs => some (Text.Utf8.encode cs)
  | utf16le, cs => some ((cs.flatMap unitsOfChar).flatMap (splitUnit false))
  | utf16be, cs => some ((cs.flatMap unitsOfChar).flatMap (splitUnit true))
  | windows1252, _ | other _ _, _ => none

def encode? (e : Encoding) (s : String) : Option (List UInt8) := e.encodeChars? s.toList

end Encoding

end Phrasebook
