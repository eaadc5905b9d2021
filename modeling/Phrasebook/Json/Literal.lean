import Phrasebook.Json.Reader

namespace Phrasebook.Json

open Decimal (Binary64)

def decimalFrom (n : Nat) : List Char → Nat
  | [] => n
  | d :: ds => decimalFrom (n * 10 + Reader.digitValue d) ds

def decimal (ds : List Char) : Nat := decimalFrom 0 ds

structure Exponent where
  letter : Char
  sign : List Char
  digits : List Char
  isLetter : letter = 'e' ∨ letter = 'E'
  isSign : sign = [] ∨ sign = ['+'] ∨ sign = ['-']
  isDigit : ∀ c ∈ digits, c.isDigit = true
  ne_nil : digits ≠ []

namespace Exponent

def chars (e : Exponent) : List Char := e.letter :: (e.sign ++ e.digits)

def isDown (e : Exponent) : Bool := e.sign = ['-']

def size (e : Exponent) : Nat := decimal e.digits

def raise? (e : Exponent) (s : Nat) (start : Int) : Option Binary64 :=
  if e.size ≤ Nat.pow 2 31 - 1 then
    Number.scale s (if e.isDown then start - e.size else start + e.size)
  else if s ≠ 0 ∧ !e.isDown then none
  else some .zero

end Exponent

structure Literal where
  negative : Bool
  integer : List Char
  /-- Empty where there is no point. -/
  fraction : List Char
  exponent : Option Exponent
  isDigit_integer : ∀ c ∈ integer, c.isDigit = true
  isDigit_fraction : ∀ c ∈ fraction, c.isDigit = true
  integer_ne_nil : integer ≠ []
  /-- A zero in front stands alone. -/
  leading : integer.head? = some '0' → integer = ['0']

namespace Literal

def point (l : Literal) : List Char := if l.fraction = [] then [] else '.' :: l.fraction

def power (l : Literal) : List Char := (l.exponent.map Exponent.chars).getD []

def unsigned (l : Literal) : List Char := l.integer ++ l.point ++ l.power

def chars (l : Literal) : List Char := if l.negative then '-' :: l.unsigned else l.unsigned

def text (l : Literal) : String := .ofList l.chars

def isInteger (l : Literal) : Bool := l.fraction.isEmpty && l.exponent.isNone

/-- The significand, and the power of ten that goes with it by the place of the point. Digits of
the integer that do not fit count for the power, and those of the fraction that do fit. -/
def significand (l : Literal) : Nat × Int :=
  let (s, dropped) := Number.absorb 0 (l.integer.map Reader.digitValue)
  let (s, lost) := Number.absorb s (l.fraction.map Reader.digitValue)
  (s, dropped - ((l.fraction.length - lost : Nat) : Int))

def binary? (l : Literal) : Option Binary64 :=
  match l.exponent with
  | none => Number.scale l.significand.1 l.significand.2
  | some e => e.raise? l.significand.1 l.significand.2

def number? (l : Literal) : Option Number :=
  if l.isInteger ∧ decimal l.integer ≤ Number.largest then
    some (.ofInteger l.negative (decimal l.integer))
  else l.binary?.map (.float l.negative)

end Literal

end Phrasebook.Json
