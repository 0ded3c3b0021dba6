import Quarry.Scalar.Basic

namespace Quarry

/-- A value that is neither a container nor an error. -/
inductive Atom where
  | null
  | bool (b : Bool)
  | long (n : Int64)
  | double (x : Float)
  | string (s : String)
deriving Repr, DecidableEq

namespace Atom

def toScalar : Atom → Scalar
  | .null => .null
  | .bool b => .bool b
  | .long n => .long n
  | .double x => .double x
  | .string s => .string s

def ofScalar? : Scalar → Option Atom
  | .null => some .null
  | .bool b => some (.bool b)
  | .long n => some (.long n)
  | .double x => some (.double x)
  | .string s => some (.string s)
  | _ => none

theorem ofScalar?_toScalar (a : Atom) : ofScalar? a.toScalar = some a := by
  cases a <;> rfl

theorem toScalar_of_ofScalar? {s : Scalar} {a : Atom} (h : ofScalar? s = some a) :
    a.toScalar = s := by
  cases s <;> simp only [ofScalar?, Option.some.injEq, reduceCtorEq] at h <;> subst h <;> rfl

end Atom

end Quarry
