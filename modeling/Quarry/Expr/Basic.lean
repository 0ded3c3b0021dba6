import Quarry.Path
import Quarry.Scalar.Atom
import Quarry.Scalar.Logic

namespace Quarry

/-- An operator with one operand. -/
inductive UnaryOp where
  | abs
  | ceiling
  | floor
  | exp
  | log
  | sqrt
  | negate
  | length
deriving Repr, DecidableEq

/-- An operator with two operands. -/
inductive BinaryOp where
  | add
  | subtract
  | multiply
  | divide
  | modulo
  | equal
  | notEqual
  | lessThan
  | lessThanOrEqual
  | greaterThan
  | greaterThanOrEqual
  | contains
  | startsWith
  | endsWith
deriving Repr, DecidableEq

/-- What is computed of one value per element. -/
inductive AggregateOp where
  | min
  | max
  | sum
  | average
deriving Repr, DecidableEq

/-- What is asked of the elements that satisfy a predicate. -/
inductive Quantifier where
  | any
  | all
  | count
deriving Repr, DecidableEq

/-- An expression over the values that its arguments are bound to. -/
inductive Expr where
  /-- The value at a path, whose first name is an argument; `path` holds it once it is checked. -/
  | field (name : String) (path : Option Path)
  | literal (value : Atom)
  | unary (op : UnaryOp) (operand : Expr)
  | binary (op : BinaryOp) (left right : Expr)
  | aggregate (op : AggregateOp) (range : Expr) (arg : String) (body : Expr)
  /-- The number of elements. -/
  | count (range : Expr)
  | connect (k : Connective) (operands : List Expr)
  | not (operand : Expr)
  | quantifier (q : Quantifier) (range : Expr) (arg : String) (body : Expr)
deriving Repr, Inhabited

def UnaryOp.name : UnaryOp → String
  | .abs => "Abs"
  | .ceiling => "Ceiling"
  | .floor => "Floor"
  | .exp => "Exp"
  | .log => "Log"
  | .sqrt => "Sqrt"
  | .negate => "Negate"
  | .length => "Length"

def BinaryOp.symbol : BinaryOp → String
  | .add => "+"
  | .subtract => "-"
  | .multiply => "*"
  | .divide => "/"
  | .modulo => "%"
  | .equal => "=="
  | .notEqual => "!="
  | .lessThan => "<"
  | .lessThanOrEqual => "<="
  | .greaterThan => ">"
  | .greaterThanOrEqual => ">="
  | .contains => "Contains"
  | .startsWith => "StartsWith"
  | .endsWith => "EndsWith"

/-- Tests on texts are written as calls on the left operand. -/
def BinaryOp.isMethod : BinaryOp → Bool
  | .contains => true
  | .startsWith => true
  | .endsWith => true
  | _ => false

def BinaryOp.isComparison : BinaryOp → Bool
  | .equal => true
  | .notEqual => true
  | .lessThan => true
  | .lessThanOrEqual => true
  | .greaterThan => true
  | .greaterThanOrEqual => true
  | _ => false

def AggregateOp.name : AggregateOp → String
  | .min => "Min"
  | .max => "Max"
  | .sum => "Sum"
  | .average => "Average"

def Quantifier.name : Quantifier → String
  | .any => "Any"
  | .all => "All"
  | .count => "Count"

namespace Expr

def isLiteral : Expr → Bool
  | .literal _ => true
  | _ => false

def isField : Expr → Bool
  | .field _ _ => true
  | _ => false

def fieldName? : Expr → Option String
  | .field name _ => some name
  | _ => none

/-- Whether the value is a truth value, unless it is null or an error. -/
def isBoolean : Expr → Bool
  | .literal (.bool _) => true
  | .binary op _ _ => op.isComparison || op.isMethod
  | .connect _ _ => true
  | .not _ => true
  | .quantifier .any _ _ _ => true
  | .quantifier .all _ _ _ => true
  | _ => false

end Expr

end Quarry
