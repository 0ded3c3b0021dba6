import Quarry.Scalar.Basic

namespace Quarry.Scalar

/-! ### Integers -/

/-- The integer in 64 bits, if they hold it. -/
def long? (n : Int) : Option Int64 :=
  if -9223372036854775808 ≤ n ∧ n < 9223372036854775808 then some (Int64.ofInt n) else none

theorem toInt_of_long? {n : Int} {m : Int64} (h : long? n = some m) : m.toInt = n := by
  simp only [long?] at h
  split at h
  · obtain rfl := Option.some.inj h
    rename_i hn
    exact Int64.toInt_ofInt_of_le (by omega) (by omega)
  · cases h

theorem long?_toInt (n : Int64) : long? n.toInt = some n := by
  have h1 := n.le_toInt
  have h2 := n.toInt_lt
  simp only [long?]
  rw [if_pos ⟨by omega, by omega⟩]
  simp

def addLong? (a b : Int64) : Option Int64 := long? (a.toInt + b.toInt)

def subtractLong? (a b : Int64) : Option Int64 := long? (a.toInt - b.toInt)

def multiplyLong? (a b : Int64) : Option Int64 := long? (a.toInt * b.toInt)

/-- The quotient of a truncating division. -/
def divideLong? (a b : Int64) : Option Int64 :=
  if b.toInt = 0 then none else long? (a.toInt.tdiv b.toInt)

/-- The remainder of a truncating division; there is none where the quotient is out of range. -/
def moduloLong? (a b : Int64) : Option Int64 :=
  if b.toInt = 0 ∨ (long? (a.toInt.tdiv b.toInt)).isNone then none
  else long? (a.toInt.tmod b.toInt)

def negateLong? (a : Int64) : Option Int64 := long? (-a.toInt)

def absLong? (a : Int64) : Option Int64 := long? a.toInt.natAbs

/-! ### Two operands -/

/-- Integers stay integers or overflow; a floating-point operand makes both floating point. -/
def arithmetic (symbol : String) (onLongs : Int64 → Int64 → Option Int64)
    (onFloats : Float → Float → Float) (a b : Scalar) : Scalar :=
  match a.firstError? b with
  | some e => e
  | none =>
    match a, b with
    | .null, _ => .null
    | _, .null => .null
    | .long m, .long n =>
      match onLongs m n with
      | some r => .long r
      | none => .error s!"integer overflow: {m.toInt} {symbol} {n.toInt}"
    | a, b =>
      match a.toFloat?, b.toFloat? with
      | some x, some y => .double (onFloats x y)
      | _, _ => a.incompatible symbol b

def add : Scalar → Scalar → Scalar := arithmetic "+" addLong? (· + ·)

def subtract : Scalar → Scalar → Scalar := arithmetic "-" subtractLong? (· - ·)

def multiply : Scalar → Scalar → Scalar := arithmetic "*" multiplyLong? (· * ·)

def isZero (s : Scalar) : Bool := s.toFloat?.any (· == 0.0)

/-- An error for a division by zero, and otherwise the quotient or remainder. -/
def dividing (symbol : String) (result : Scalar → Scalar → Scalar) (a b : Scalar) : Scalar :=
  match a.firstError? b with
  | some e => e
  | none =>
    if b.isZero && a.isNumber then .error s!"division by zero: {a.display} {symbol} {b.display}"
    else result a b

/-- An exact quotient of integers is an integer, any other is floating point. -/
def quotient (a b : Scalar) : Scalar :=
  match a, b with
  | .long m, .long n =>
    if moduloLong? m n = some 0 then
      match divideLong? m n with
      | some q => .long q
      | none => .error s!"integer overflow: {m.toInt} / {n.toInt}"
    else .double (longToFloat m / longToFloat n)
  | a, b => arithmetic "/" (fun _ _ => none) (· / ·) a b

def divide : Scalar → Scalar → Scalar := dividing "/" quotient

def modulo : Scalar → Scalar → Scalar :=
  dividing "%" (arithmetic "%" moduloLong? Numeral.remainder)

/-! ### One operand -/

def unary (name : String) (onLong : Int64 → Option Scalar) (onFloat : Float → Float) :
    Scalar → Scalar
  | .error message => .error message
  | .null => .null
  | .long n => (onLong n).getD (.error s!"integer overflow: {name}({n.toInt})")
  | .double x => .double (onFloat x)
  | s => .error s!"{name} expects a number, got {s.described}"

def abs : Scalar → Scalar := unary "Abs" (fun n => (absLong? n).map .long) Float.abs

def ceiling : Scalar → Scalar := unary "Ceiling" (fun n => some (.long n)) Float.ceil

def floor : Scalar → Scalar := unary "Floor" (fun n => some (.long n)) Float.floor

def exp : Scalar → Scalar := unary "Exp" (fun n => some (.double (longToFloat n).exp)) Float.exp

def log : Scalar → Scalar := unary "Log" (fun n => some (.double (longToFloat n).log)) Float.log

def sqrt : Scalar → Scalar := unary "Sqrt" (fun n => some (.double (longToFloat n).sqrt)) Float.sqrt

def negate : Scalar → Scalar := unary "Negate" (fun n => (negateLong? n).map .long) (- ·)

end Quarry.Scalar
