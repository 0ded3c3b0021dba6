import Quarry.Scalar.Basic

namespace Quarry.Scalar

/-- Equality in three values: null is equal to null and undecided against anything else. -/
def equals (a b : Scalar) : Scalar :=
  match a.firstError? b with
  | some e => e
  | none =>
    match a, b with
    | .null, .null => .bool true
    | .null, _ => .null
    | _, .null => .null
    | .string s, .string t => .bool (s == t)
    | .bool p, .bool q => .bool (p == q)
    | .long m, .long n => .bool (m == n)
    | a, b =>
      match a.toFloat?, b.toFloat? with
      | some x, some y => .bool (x == y)
      | _, _ => a.incompatible "==" b

def notEquals (a b : Scalar) : Scalar :=
  match a.equals b with
  | .bool p => .bool !p
  | s => s

def orderFloats? (x y : Float) : Option Ordering :=
  if x < y then some .lt
  else if x == y then some .eq
  else if y < x then some .gt
  else none

/-- The order of two values, or the value a comparison of them has instead. -/
def order (a b : Scalar) (symbol : String) : Except Scalar Ordering :=
  match a.firstError? b with
  | some e => .error e
  | none =>
    match a, b with
    | .null, _ => .error .null
    | _, .null => .error .null
    | .string s, .string t => .ok (compare s t)
    | .bool p, .bool q => .ok (compare p q)
    | .long m, .long n => .ok (compare m n)
    | a, b =>
      match a.toFloat?, b.toFloat? with
      | some x, some y =>
        match orderFloats? x y with
        | some o => .ok o
        | none => .error (.error s!"cannot order {a.display} {symbol} {b.display}")
      | _, _ => .error (a.incompatible symbol b)

def compareWith (symbol : String) (test : Ordering → Bool) (a b : Scalar) : Scalar :=
  match a.order b symbol with
  | .ok o => .bool (test o)
  | .error s => s

def less : Scalar → Scalar → Scalar := compareWith "<" Ordering.isLT

def lessOrEqual : Scalar → Scalar → Scalar := compareWith "<=" Ordering.isLE

def greater : Scalar → Scalar → Scalar := compareWith ">" Ordering.isGT

def greaterOrEqual : Scalar → Scalar → Scalar := compareWith ">=" Ordering.isGE

end Quarry.Scalar
