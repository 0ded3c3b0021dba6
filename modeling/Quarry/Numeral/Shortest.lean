import Quarry.Numeral.Dyadic

namespace Quarry.Numeral

/-- Which of two equally near candidates is written. -/
inductive Tie where
  | up
  | even
deriving Repr, DecidableEq

/-- The number `digits * 10 ^ exp`. -/
structure Digits where
  digits : Nat
  exp : Int
deriving Repr, DecidableEq

namespace Dyadic

/-- The gap to the next number above, in the units of `rulerAt`. -/
def gapAt (x : Dyadic) (e : Int) : Nat := twoTo x.exp.toNat * tenTo (-e).toNat

/-- One step of the grid `10 ^ e`, in the units of `gapAt`. -/
def rulerAt (x : Dyadic) (e : Int) : Nat := twoTo (-x.exp).toNat * tenTo e.toNat

/-- The gap below a power of two is half the gap above it. -/
def narrowBelow (x : Dyadic) : Bool := x.mant == leadingBit && decide (-1074 < x.exp)

/-- Whether `d * 10 ^ e` lies among the reals that round to `x`, halves going to an even mantissa. -/
def readsBack (x : Dyadic) (d : Digits) : Bool :=
  let value := x.mant * x.gapAt d.exp
  let point := d.digits * x.rulerAt d.exp
  let within (twice : Nat) : Bool :=
    decide (twice < x.gapAt d.exp) || (twice == x.gapAt d.exp && x.mant % 2 == 0)
  if value ≤ point then within (2 * (point - value))
  else within ((if x.narrowBelow then 4 else 2) * (value - point))

/-- The least `k` with `x < 10 ^ k`; every positive number here is above `10 ^ (-400)`. -/
def magnitude (x : Dyadic) : Int :=
  ((Nat.toDigits 10 (x.mant * x.gapAt (-400) / x.rulerAt (-400))).length : Int) - 400

/-- The neighbours of `x` on the grid `10 ^ e` that read back, the nearer first. -/
def onGrid (tie : Tie) (x : Dyadic) (e : Int) : Option Digits :=
  let value := x.mant * x.gapAt e
  let below : Digits := ⟨value / x.rulerAt e, e⟩
  let above : Digits := ⟨value / x.rulerAt e + 1, e⟩
  match x.readsBack below, x.readsBack above with
  | false, false => none
  | true, false => some below
  | false, true => some above
  | true, true =>
    match compare (2 * (value % x.rulerAt e)) (x.rulerAt e) with
    | .lt => some below
    | .gt => some above
    | .eq =>
      match tie with
      | .up => some above
      | .even => if below.digits % 2 = 0 then some below else some above

end Dyadic

/-- Moves trailing zeros of the digits into the exponent. -/
def Digits.strip : Nat → Digits → Digits
  | 0, d => d
  | fuel + 1, d => if d.digits % 10 = 0 then strip fuel ⟨d.digits / 10, d.exp + 1⟩ else d

/-- The value with all its digits. -/
def Dyadic.exact (x : Dyadic) : Digits :=
  if 0 ≤ x.exp then ⟨x.mant * twoTo x.exp.toNat, 0⟩
  else ⟨x.mant * fiveTo (-x.exp).toNat, x.exp⟩

/-- The fewest digits that read back as a positive `x`, the nearest of those. -/
def shortest (tie : Tie) (x : Dyadic) : Digits :=
  match (List.range 17).findSome? fun n : Nat => x.onGrid tie (x.magnitude - (n + 1 : Int)) with
  | some d => d.strip 17
  | none => x.exact

end Quarry.Numeral
