import Quarry.Numeral.Dyadic

namespace Quarry.Numeral

/-- The decimal `±mant / 10 ^ scale`, with a mantissa of 96 bits and a scale of at most 28. -/
structure Fixed where
  negative : Bool
  mant : Nat
  scale : Nat
deriving Repr, DecidableEq

namespace Fixed

/-- Mantissas have 96 bits. -/
def mantLimit : Nat := 79228162514264337593543950336

def zero : Fixed := ⟨false, 0, 0⟩

def ofInt (n : Int) : Fixed := ⟨n < 0, n.natAbs, 0⟩

/-- `n / d` to the nearest integer, halves to the even one. -/
def roundEven (n d : Nat) : Nat :=
  let q := n / d
  match compare (2 * (n % d)) d with
  | .lt => q
  | .gt => q + 1
  | .eq => q + q % 2

/-! ### From floating point -/

/-- Halves the number `k` times: by a factor of five and one decimal place where there is room. -/
def halve : Nat → Nat → Int → Nat × Int
  | 0, m, e => (m, e)
  | k + 1, m, e =>
    if m % 2 = 1 ∧ m * 5 < mantLimit then halve k (m * 5) e else halve k (m / 2) (e + 1)

/-- Doubles the number `k` times: in the mantissa while there is room, then by dropping fifths. -/
def double : Nat → Nat → Int → Option (Nat × Int)
  | 0, m, e => some (m, e)
  | k + 1, m, e =>
    if 2 * m < mantLimit then double k (m * 2) (e - 1)
    else if 2 * e > (k + 1 : Int) then none
    else double k (m / 5) e

/-- Multiplies out a positive power of ten. -/
def widen : Nat → Nat → Option Nat
  | 0, m => some m
  | k + 1, m => if m * 10 < mantLimit then widen k (m * 10) else none

/-- Drops `k` decimal places one by one; a half goes up each time. -/
def narrow : Nat → Nat → Nat → Nat × Nat
  | 0, m, s => (m, s)
  | k + 1, m, s =>
    if m / 10 = 0 then (0, 0)
    else narrow k (m / 10 + if 5 ≤ m % 10 then 1 else 0) (s - 1)

/-- Drops decimal places until the mantissa is below `2 ^ 52`. -/
def trim : Nat → Nat → Nat × Nat
  | 0, m => (m, 0)
  | s + 1, m =>
    if Dyadic.leadingBit ≤ m then trim s (m / 10 + if 5 ≤ m % 10 then 1 else 0) else (m, s + 1)

/-- Drops trailing zeros. -/
def strip : Nat → Nat → Nat × Nat
  | 0, m => (m, 0)
  | s + 1, m => if m % 10 = 0 then strip s (m / 10) else (m, s + 1)

def ofDyadic? (negative : Bool) (x : Dyadic) : Option Fixed := do
  let (m, e) ← if x.exp < 0 then some (halve (-x.exp).toNat x.mant x.exp)
    else double x.exp.toNat x.mant x.exp
  if 0 < e then
    return ⟨negative, ← widen e.toNat m, 0⟩
  let (m, s) := narrow ((-e).toNat - 28) m (-e).toNat
  let (m, s) := trim s m
  let (m, s) := strip s m
  return ⟨negative, m, s⟩

/-- The decimal of a finite number, to the precision of its mantissa. -/
def ofFloat? (x : Float) : Option Fixed :=
  if x.isNaN || x.isInf then none
  else ofDyadic? (isNegative x) (Dyadic.ofFloat x)

/-! ### Arithmetic -/

def signed (x : Fixed) : Int := if x.negative then -(x.mant : Int) else x.mant

/-- Reduces the scale as little as needed for the mantissa to fit. -/
def fit (negative : Bool) (m s : Nat) : Option Fixed :=
  (List.range (s + 1)).findSome? fun k =>
    let m' := roundEven m (tenTo k)
    if m' < mantLimit then some ⟨negative, m', s - k⟩ else none

/-- The sum at the larger scale; a zero operand gives the other one back unchanged. -/
def add? (x y : Fixed) : Option Fixed :=
  if x.mant = 0 then some y
  else if y.mant = 0 then some x
  else
    let s := max x.scale y.scale
    let n := x.signed * tenTo (s - x.scale) + y.signed * tenTo (s - y.scale)
    fit (n < 0) n.natAbs s

/-- The largest power of ten that a quotient at scale `s` still has room for. -/
def roomFor (q s : Nat) : Nat :=
  ((List.range (min 9 (28 - s) + 1)).reverse.find? fun p => q * tenTo p < mantLimit).getD 0

/-- Carries the division of a remainder `r` by `n` on into further decimal places. -/
def divideOn (n : Nat) : Nat → Nat → Nat → Nat → Nat × Nat
  | 0, q, _, s => (q, s)
  | fuel + 1, q, r, s =>
    if r = 0 then (q, s)
    else
      let p := roomFor q s
      if p = 0 then (roundEven (q * n + r) n, s)
      else divideOn n fuel (q * tenTo p + r * tenTo p / n) (r * tenTo p % n) (s + p)

/-- Drops eight zeros at a time, as long as the low word is empty. -/
def dropEights : Nat → Nat → Nat → Nat × Nat
  | 0, q, s => (q, s)
  | fuel + 1, q, s =>
    if q % 4294967296 = 0 ∧ 8 ≤ s ∧ q % tenTo 8 = 0 then dropEights fuel (q / tenTo 8) (s - 8) else (q, s)

def dropZeros (k : Nat) : Nat × Nat → Nat × Nat
  | (q, s) => if k ≤ s ∧ q % tenTo k = 0 then (q / tenTo k, s - k) else (q, s)

/-- The quotient by a positive count. -/
def divide (x : Fixed) (n : Nat) : Fixed :=
  if x.mant = 0 then zero
  else if x.mant % n = 0 then ⟨x.negative, x.mant / n, x.scale⟩
  else
    let (q, s) := divideOn n 30 (x.mant / n) (x.mant % n) x.scale
    let (q, s) := dropZeros 1 (dropZeros 2 (dropZeros 4 (dropEights 4 q s)))
    ⟨x.negative, q, s⟩

/-! ### To floating point -/

def natToFloat (n : Nat) : Float := Float.ofScientific n false 0

def toFloat (x : Fixed) : Float :=
  if x.scale = 0 then withSign (x.negative && x.mant ≠ 0) (natToFloat x.mant)
  else
    let unit := natToFloat (tenTo x.scale)
    let whole := natToFloat (x.mant / tenTo x.scale)
    let frac := natToFloat (x.mant % tenTo x.scale) / unit
    withSign x.negative <|
      if frac == 0.0 then whole else ((whole + frac) * unit).round / unit

end Fixed

end Quarry.Numeral
