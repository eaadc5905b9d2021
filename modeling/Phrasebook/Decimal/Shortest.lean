import Phrasebook.Decimal.Binary64

/-!
The shortest decimal text that reads back as a given binary number. A number stands for the interval
of reals that round to it, and its digits are those of the point of the coarsest decimal grid in
that interval, the nearest one where there are two. Of two as near a style takes the even or the
greater one.
-/

namespace Phrasebook.Decimal

/-- The number `0.d₁d₂… * 10 ^ point`, where `d₁d₂…` are the digits of `digits`. -/
structure Scientific where
  digits : List Nat
  point : Int
  deriving DecidableEq, Repr

inductive Tie
  | even
  | up
  deriving DecidableEq

def Tie.choose : Tie → Nat → Nat
  | even, c => c + c % 2
  | up, c => c + 1

namespace Binary64

/-- Below a power of two the neighbours stand twice as close. -/
def lowerBound (x : Binary64) : Nat :=
  if x.mantissa = Nat.pow 2 52 ∧ x.exponent ≠ -1074 then 4 * x.mantissa - 1
  else 4 * x.mantissa - 2

def upperBound (x : Binary64) : Nat := 4 * x.mantissa + 2

def admits (x : Binary64) (c : Nat) (k : Int) : Bool :=
  let e := x.exponent - 2
  let scale := Nat.pow 2 e.toNat * Nat.pow 10 (-k).toNat
  let point := c * Nat.pow 10 k.toNat * Nat.pow 2 (-e).toNat
  if x.mantissa % 2 = 0 then
    decide (x.lowerBound * scale ≤ point) && decide (point ≤ x.upperBound * scale)
  else decide (x.lowerBound * scale < point) && decide (point < x.upperBound * scale)

def magnitude (x : Binary64) : Int :=
  let (n, d) := x.ratio
  if d ≤ n then ((Nat.toDigits 10 (n / d)).length : Int)
  else
    -- the least `k` with `d ≤ n * 10 ^ k` is one more than the zeros after the point
    let k := (List.range 326).find? (fun k => decide (d ≤ n * Nat.pow 10 k))
    1 - (k.getD 0 : Int)

/-- The point of the grid of step `10 ^ k` that stands for `x`, if there is one. -/
def gridPoint? (tie : Tie) (x : Binary64) (k : Int) : Option Nat :=
  let (n, d) := x.ratio
  let a := n * Nat.pow 10 (-k).toNat
  let b := d * Nat.pow 10 k.toNat
  let c := a / b
  let r := a % b
  match x.admits c k, x.admits (c + 1) k with
  | true, true => some (if 2 * r < b then c else if b < 2 * r then c + 1 else tie.choose c)
  | true, false => some c
  | false, true => some (c + 1)
  | false, false => none

def digitList (n : Nat) : List Nat := (Nat.toDigits 10 n).map fun c => c.toNat - 48

def significant (ds : List Nat) : List Nat := (ds.reverse.dropWhile (· == 0)).reverse

def shortest (tie : Tie) (x : Binary64) : Scientific :=
  if x.isZero then ⟨[0], 1⟩
  else
    let p := x.magnitude
    let found := (List.range 17).findSome? fun i =>
      let k : Int := p - ((i + 1 : Nat) : Int)
      (x.gridPoint? tie k).map fun c =>
        let ds := digitList c
        (⟨significant ds, k + ds.length⟩ : Scientific)
    found.getD ⟨[0], 1⟩

end Binary64

structure Style where
  tie : Tie
  least : Option Int
  limit : Option Int
  deriving DecidableEq

namespace Scientific

def digitText (ds : List Nat) : String := .ofList (ds.map fun d => Char.ofNat (48 + d))

def zeros (n : Nat) : String := .ofList (List.replicate n '0')

def positional (x : Scientific) : String :=
  if x.point ≤ 0 then "0." ++ zeros (-x.point).toNat ++ digitText x.digits
  else
    let p := x.point.toNat
    if x.digits.length ≤ p then digitText x.digits ++ zeros (p - x.digits.length) ++ ".0"
    else digitText (x.digits.take p) ++ "." ++ digitText (x.digits.drop p)

def exponential (x : Scientific) : String :=
  let e := x.point - 1
  let sign := if e < 0 then "-" else "+"
  let fraction := if x.digits.length ≤ 1 then "" else "." ++ digitText (x.digits.drop 1)
  digitText (x.digits.take 1) ++ fraction ++ "e" ++ sign ++ toString e.natAbs

def text (style : Style) (x : Scientific) : String :=
  if style.least.all (· ≤ x.point - 1) && style.limit.all (x.point - 1 < ·) then x.positional
  else x.exponential

end Scientific

def Binary64.text (style : Style) (x : Binary64) : String := (x.shortest style.tie).text style

end Phrasebook.Decimal
