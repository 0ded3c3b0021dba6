import Quarry.Numeral.Layout

namespace Quarry

/-- A value an expression works on. Containers are only marked, errors are values like the others. -/
inductive Scalar where
  | string (s : String)
  | double (x : Float)
  | long (n : Int64)
  | bool (b : Bool)
  | null
  | array
  | object
  | error (message : String)
  /-- No value was produced. -/
  | undefined
deriving Repr, DecidableEq, Inhabited

namespace Scalar

/-- Numbers in expressions and messages are plain from `0.0001` to below `10 ^ 16`. -/
def numberLayout : Numeral.Layout := ⟨-4, 16, false, .up⟩

def typeName : Scalar → String
  | .string _ => "string"
  | .double _ => "double"
  | .long _ => "long"
  | .bool _ => "bool"
  | .null => "null"
  | .array => "array"
  | .object => "object"
  | .error _ => "error"
  | .undefined => "undefined"

/-- How a value shows in messages. -/
def display : Scalar → String
  | .string s => "'" ++ s ++ "'"
  | .double x => numberLayout.write x
  | .long n => toString n.toInt
  | .bool b => if b then "true" else "false"
  | .null => "null"
  | .array => "[...]"
  | .object => "\x7b...\x7d"
  | .error message => "error: " ++ message
  | .undefined => "undefined"

/-- A value with its type, as messages name it. -/
def described (s : Scalar) : String := s.display ++ " (" ++ s.typeName ++ ")"

def isError : Scalar → Bool
  | .error _ => true
  | _ => false

def isNull : Scalar → Bool
  | .null => true
  | _ => false

def isNumber : Scalar → Bool
  | .long _ => true
  | .double _ => true
  | _ => false

def toBool? : Scalar → Option Bool
  | .bool b => some b
  | _ => none

def longToFloat (n : Int64) : Float := Float.ofInt n.toInt

/-- The number as floating point; an integer is rounded to nearest. -/
def toFloat? : Scalar → Option Float
  | .long n => some (longToFloat n)
  | .double x => some x
  | _ => none

def toString? : Scalar → Option String
  | .string s => some s
  | _ => none

def errorMessage? : Scalar → Option String
  | .error message => some message
  | _ => none

/-- The first error among two operands. -/
def firstError? (a b : Scalar) : Option Scalar :=
  if a.isError then some a else if b.isError then some b else none

def incompatible (a : Scalar) (symbol : String) (b : Scalar) : Scalar :=
  .error s!"incompatible operands: {a.described} {symbol} {b.described}"

theorem isNumber_eq_isSome_toFloat? (s : Scalar) : s.isNumber = s.toFloat?.isSome := by
  cases s <;> rfl

theorem firstError?_of_isError {a : Scalar} (h : a.isError = true) (b : Scalar) :
    a.firstError? b = some a := by
  simp [firstError?, h]

end Scalar

end Quarry
