import Quarry.Numeral.Power

namespace Quarry.Numeral

/-- The magnitude `mant * 2 ^ exp` of a finite floating-point number. -/
structure Dyadic where
  mant : Nat
  exp : Int
deriving Repr, DecidableEq

namespace Dyadic

/-- The leading bit of a mantissa, `2 ^ 52`; only subnormal numbers lack it. -/
def leadingBit : Nat := 4503599627370496

/-- A word is a sign, eleven bits of exponent and 52 bits of mantissa. -/
def ofBits (b : UInt64) : Dyadic :=
  let e : Nat := b.toNat / leadingBit % 2048
  let f : Nat := b.toNat % leadingBit
  if e = 0 then ⟨f, -1074⟩ else ⟨leadingBit + f, (e : Int) - 1075⟩

def ofFloat (x : Float) : Dyadic := ofBits x.toBits

/-- Exact whenever the mantissa has at most 53 bits and the exponent is in range. -/
def toFloat (x : Dyadic) : Float :=
  if 0 ≤ x.exp then Float.ofScientific (x.mant * twoTo x.exp.toNat) false 0
  else Float.ofScientific (x.mant * fiveTo (-x.exp).toNat) true (-x.exp).toNat

/-- The remainder of a truncating division, with both numbers over the smaller power of two. -/
def rem (x y : Dyadic) : Dyadic :=
  let e := min x.exp y.exp
  ⟨(x.mant * twoTo (x.exp - e).toNat) % (y.mant * twoTo (y.exp - e).toNat), e⟩

end Dyadic

def nan : Float := 0.0 / 0.0

def infinity : Float := 1.0 / 0.0

/-- Whether the sign bit is set, which it may be for zero too. -/
def isNegative (x : Float) : Bool := 9223372036854775808 ≤ x.toBits.toNat

def withSign (negative : Bool) (x : Float) : Float := if negative then -x else x

/-- The remainder of `x / y` truncated towards zero; it has the sign of `x`. -/
def remainder (x y : Float) : Float :=
  if x.isNaN || y.isNaN || x.isInf || y == 0.0 then nan
  else if y.isInf then x
  else withSign (isNegative x) ((Dyadic.ofFloat x).rem (Dyadic.ofFloat y)).toFloat

end Quarry.Numeral
