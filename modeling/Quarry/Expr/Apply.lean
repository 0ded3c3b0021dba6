import Quarry.Expr.Basic
import Quarry.Scalar.Arithmetic
import Quarry.Scalar.Compare

namespace Quarry

def UnaryOp.apply : UnaryOp → Scalar → Scalar
  | .abs => Scalar.abs
  | .ceiling => Scalar.ceiling
  | .floor => Scalar.floor
  | .exp => Scalar.exp
  | .log => Scalar.log
  | .sqrt => Scalar.sqrt
  | .negate => Scalar.negate
  | .length => Scalar.length

def BinaryOp.apply : BinaryOp → Scalar → Scalar → Scalar
  | .add => Scalar.add
  | .subtract => Scalar.subtract
  | .multiply => Scalar.multiply
  | .divide => Scalar.divide
  | .modulo => Scalar.modulo
  | .equal => Scalar.equals
  | .notEqual => Scalar.notEquals
  | .lessThan => Scalar.less
  | .lessThanOrEqual => Scalar.lessOrEqual
  | .greaterThan => Scalar.greater
  | .greaterThanOrEqual => Scalar.greaterOrEqual
  | .contains => Scalar.contains
  | .startsWith => Scalar.startsWith
  | .endsWith => Scalar.endsWith

end Quarry
