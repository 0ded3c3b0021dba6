import Quarry.Json.Value
import Quarry.Scalar.Arithmetic

namespace Quarry.Scalar

/-- Errors, markers and numbers that are not finite become null. -/
def toJson : Scalar → Json.Value
  | .string s => .string s
  | .double x => if x.isFinite then .number (.float x) else .null
  | .long n => .number (.int n.toInt)
  | .bool b => .bool b
  | _ => .null

def ofNumber : Json.Number → Scalar
  | .int n =>
    match long? n with
    | some m => .long m
    | none => .double (Float.ofInt n)
  | .float x => .double x

/-- Containers become markers. -/
def ofJson : Json.Value → Scalar
  | .null => .null
  | .bool b => .bool b
  | .number n => ofNumber n
  | .string s => .string s
  | .array _ => .array
  | .object _ => .object

end Quarry.Scalar
