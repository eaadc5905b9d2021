import Phrasebook.Decimal.Shortest

namespace Phrasebook.Json

open Decimal (Binary64)

inductive Number
  | natural : Nat → Number
  /-- Minus the given positive integer. -/
  | negative : Nat → Number
  /-- The flag says whether a minus sign stands in front. -/
  | float : Bool → Binary64 → Number
  deriving DecidableEq, Repr

namespace Number

def style : Decimal.Style := ⟨.even, some (-5), some 16⟩

def floatText (negative : Bool) (x : Binary64) : String :=
  (if negative then "-" else "") ++ x.text style

def text : Number → String
  | natural n => toString n
  | negative n => "-" ++ toString n
  | float s x => floatText s x

def largest : Nat := Nat.pow 2 64 - 1

/-- Digits go into the significand until one does not fit; it and those after it are counted. -/
def absorb (significand : Nat) : List Nat → Nat × Nat
  | [] => (significand, 0)
  | d :: ds =>
    if largest < significand * 10 + d then (significand, ds.length + 1)
    else absorb (significand * 10 + d) ds

def power (k : Nat) : Option Binary64 := Binary64.ofNat (Nat.pow 10 k)

def divide (x : Binary64) (k : Nat) : Option Binary64 :=
  if x.isZero then some x
  else if k ≤ 308 then (power k).bind x.div
  else ((power 308).bind x.div).bind fun y => divide y (k - 308)
termination_by k

def scale (significand : Nat) (exponent : Int) : Option Binary64 :=
  (Binary64.ofNat significand).bind fun x =>
    if exponent < 0 then divide x (-exponent).toNat
    else if x.isZero then some x
    else if exponent ≤ 308 then (power exponent.toNat).bind x.mul
    else none

def ofInteger (negativeSign : Bool) (n : Nat) : Number :=
  if !negativeSign then natural n
  else if 1 ≤ n ∧ n ≤ Nat.pow 2 63 then negative n
  else float true ((Binary64.ofNat n).getD .zero)

end Number

end Phrasebook.Json
