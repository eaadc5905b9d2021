namespace Phrasebook.Decimal

structure Binary64 where
  mantissa : Nat
  exponent : Int
  deriving DecidableEq, Repr

namespace Binary64

def zero : Binary64 := ⟨0, -1074⟩

def isZero (x : Binary64) : Bool := x.mantissa == 0

def ratio (x : Binary64) : Nat × Nat :=
  (x.mantissa * Nat.pow 2 x.exponent.toNat, Nat.pow 2 (-x.exponent).toNat)

def roundQuotient (n d : Nat) : Nat :=
  let q := n / d
  let r := n % d
  if 2 * r < d then q else if d < 2 * r then q + 1 else q + q % 2

def scaled (n d : Nat) (e : Int) : Nat × Nat :=
  (n * Nat.pow 2 (-e).toNat, d * Nat.pow 2 e.toNat)

def unitExponent (n d : Nat) : Int :=
  let e : Int := (n.log2 : Int) - d.log2 - 52
  let (a, b) := scaled n d e
  max (if a / b < Nat.pow 2 52 then e - 1 else e) (-1074)

/-- The nearest number to `n / d`; none above the largest one. -/
def ofRatio (n d : Nat) : Option Binary64 :=
  if n = 0 then some zero
  else
    let e := unitExponent n d
    let (a, b) := scaled n d e
    let m := roundQuotient a b
    let x : Binary64 := if m = Nat.pow 2 53 then ⟨Nat.pow 2 52, e + 1⟩ else ⟨m, e⟩
    if x.exponent ≤ 971 then some x else none

def ofNat (n : Nat) : Option Binary64 := ofRatio n 1

def mul (x y : Binary64) : Option Binary64 :=
  ofRatio (x.ratio.1 * y.ratio.1) (x.ratio.2 * y.ratio.2)

def div (x y : Binary64) : Option Binary64 :=
  if y.isZero then none else ofRatio (x.ratio.1 * y.ratio.2) (x.ratio.2 * y.ratio.1)

def ofDecimal (digits : Nat) (scale : Int) : Option Binary64 :=
  ofRatio (digits * Nat.pow 10 scale.toNat) (Nat.pow 10 (-scale).toNat)

end Binary64

end Phrasebook.Decimal
