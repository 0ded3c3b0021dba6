import Quarry.Expr.Basic
import Quarry.Json.Printer
import Quarry.Json.Tagged
import Quarry.Scalar.Json

/-!
Expressions as JSON: every node is a tagged value, `{"op":"add","left":…,"right":…}`.
-/

namespace Quarry

def UnaryOp.kind : UnaryOp → String
  | .abs => "abs"
  | .ceiling => "ceiling"
  | .floor => "floor"
  | .exp => "exp"
  | .log => "log"
  | .sqrt => "sqrt"
  | .negate => "negate"
  | .length => "length"

def BinaryOp.kind : BinaryOp → String
  | .add => "add"
  | .subtract => "subtract"
  | .multiply => "multiply"
  | .divide => "divide"
  | .modulo => "modulo"
  | .equal => "equal"
  | .notEqual => "notEqual"
  | .lessThan => "lessThan"
  | .lessThanOrEqual => "lessThanOrEqual"
  | .greaterThan => "greaterThan"
  | .greaterThanOrEqual => "greaterThanOrEqual"
  | .contains => "contains"
  | .startsWith => "startsWith"
  | .endsWith => "endsWith"

def AggregateOp.kind : AggregateOp → String
  | .min => "min"
  | .max => "max"
  | .sum => "sum"
  | .average => "average"

def Quantifier.kind : Quantifier → String
  | .any => "any"
  | .all => "all"
  | .count => "countWhere"

def Connective.kind : Connective → String
  | .and => "and"
  | .or => "or"

def Atom.kind : Atom → String
  | .null => "null"
  | .bool true => "true"
  | .bool false => "false"
  | .long _ => "int64"
  | .double _ => "double"
  | .string _ => "string"

namespace Expr

def kind : Expr → String
  | .field _ _ => "field"
  | .literal a => a.kind
  | .unary op _ => op.kind
  | .binary op _ _ => op.kind
  | .aggregate op _ _ _ => op.kind
  | .count _ => "count"
  | .connect k _ => k.kind
  | .not _ => "not"
  | .quantifier q _ _ _ => q.kind

/-! ### Writing -/

def tagged (kind : String) (fields : List (String × Json.Value)) : Json.Value :=
  .object ((Json.tagName, .string kind) :: fields)

def atomToJson (a : Atom) : Json.Value :=
  tagged a.kind <|
    match a with
    | .long n => [("value", .number (.int n.toInt))]
    | .double x => [("value", .number (.float x))]
    | .string s => [("value", .string s)]
    | _ => []

mutual

def toJson : Expr → Json.Value
  | .field name _ => tagged "field" [("name", .string name)]
  | .literal a => atomToJson a
  | .unary op e => tagged op.kind [("value", e.toJson)]
  | .binary op l r => tagged op.kind [("left", l.toJson), ("right", r.toJson)]
  | .aggregate op f x b =>
    tagged op.kind [("field", f.toJson), ("arg", .string x), ("array", b.toJson)]
  | .count f => tagged "count" [("field", f.toJson)]
  | .connect k es => tagged k.kind [("operands", .array (allToJson es))]
  | .not e => tagged "not" [("operand", e.toJson)]
  | .quantifier q f x b =>
    tagged q.kind [("field", f.toJson), ("arg", .string x), ("predicate", b.toJson)]

def allToJson : List Expr → List Json.Value
  | [] => []
  | e :: es => e.toJson :: allToJson es

end

/-- The JSON text of an expression. -/
def toWire (e : Expr) : String := e.toJson.text

/-! ### Reading -/

/-- All kinds; within other values a kind may also be given by its place in this list. -/
def kinds : List String :=
  ["field", "string", "double", "int64", "null", "true", "false", "abs", "ceiling", "floor", "exp",
    "log", "sqrt", "negate", "length", "add", "subtract", "multiply", "divide", "modulo", "min",
    "max", "sum", "average", "count", "equal", "notEqual", "lessThan", "lessThanOrEqual",
    "greaterThan", "greaterThanOrEqual", "and", "or", "not", "any", "all", "countWhere",
    "contains", "startsWith", "endsWith"]

def unaryOps : List UnaryOp := [.abs, .ceiling, .floor, .exp, .log, .sqrt, .negate, .length]

def binaryOps : List BinaryOp :=
  [.add, .subtract, .multiply, .divide, .modulo, .equal, .notEqual, .lessThan, .lessThanOrEqual,
    .greaterThan, .greaterThanOrEqual, .contains, .startsWith, .endsWith]

/-- A value, and what it is if it is an expression or a list of them. -/
structure Decoded where
  value : Json.Value
  expr : Option Expr
  exprs : Option (List Expr)

def Decoded.string? (d : Decoded) : Option String :=
  match d.value with
  | .string s => some s
  | _ => none

def Decoded.long? (d : Decoded) : Option Int64 :=
  match d.value with
  | .number (.int n) => Scalar.long? n
  | _ => none

def Decoded.double? (d : Decoded) : Option Float :=
  match d.value with
  | .number n => (Scalar.ofNumber n).toFloat?
  | _ => none

/-- Kinds without fields pass over whatever an object holds. -/
def constant? (a : Atom) (body : Json.Body Decoded) : Option Expr :=
  match body with
  | .fields _ => some (.literal a)
  | .items [] => some (.literal a)
  | .items (_ :: _) => none

def elementWise? (make : Expr → String → Expr → Expr) (bodyName : String)
    (body : Json.Body Decoded) : Option Expr := do
  match ← body.take? ["field", "arg", bodyName] with
  | [f, x, b] => return make (← f.expr) (← x.string?) (← b.expr)
  | _ => none

/-- The expression of a kind with the given fields. -/
def build? (t : Json.Tagged Decoded) : Option Expr :=
  if let some op := unaryOps.find? (·.kind == t.kind) then do
    match ← t.body.take? ["value"] with
    | [e] => return .unary op (← e.expr)
    | _ => none
  else if let some op := binaryOps.find? (·.kind == t.kind) then do
    match ← t.body.take? ["left", "right"] with
    | [l, r] => return .binary op (← l.expr) (← r.expr)
    | _ => none
  else if let some op := [AggregateOp.min, .max, .sum, .average].find? (·.kind == t.kind) then
    elementWise? (.aggregate op) "array" t.body
  else if let some q := [Quantifier.any, .all, .count].find? (·.kind == t.kind) then
    elementWise? (.quantifier q) "predicate" t.body
  else if let some k := [Connective.and, .or].find? (·.kind == t.kind) then do
    match ← t.body.take? ["operands"] with
    | [es] => return .connect k (← es.exprs)
    | _ => none
  else if t.kind = "not" then do
    match ← t.body.take? ["operand"] with
    | [e] => return .not (← e.expr)
    | _ => none
  else if t.kind = "count" then do
    match ← t.body.take? ["field"] with
    | [f] => return .count (← f.expr)
    | _ => none
  else if t.kind = "field" then do
    match ← t.body.take? ["name"] with
    | [n] => return .field (← n.string?) none
    | _ => none
  else if t.kind = "string" then do
    match ← t.body.take? ["value"] with
    | [v] => return .literal (.string (← v.string?))
    | _ => none
  else if t.kind = "int64" then do
    match ← t.body.take? ["value"] with
    | [v] => return .literal (.long (← v.long?))
    | _ => none
  else if t.kind = "double" then do
    match ← t.body.take? ["value"] with
    | [v] => return .literal (.double (← v.double?))
    | _ => none
  else if t.kind = "null" then constant? .null t.body
  else if t.kind = "true" then constant? (.bool true) t.body
  else if t.kind = "false" then constant? (.bool false) t.body
  else none

mutual

def decode : Json.Value → Decoded
  | .array vs =>
    let ds := decodeItems vs
    ⟨.array vs, (Json.Tagged.ofItems? kinds Decoded.value ds).bind build?, ds.mapM Decoded.expr⟩
  | .object ms =>
    let ds := decodeMembers ms
    ⟨.object ms, (Json.Tagged.ofMembers? kinds Decoded.value ds).bind build?, none⟩
  | .null => ⟨.null, none, none⟩
  | .bool b => ⟨.bool b, none, none⟩
  | .number n => ⟨.number n, none, none⟩
  | .string s => ⟨.string s, none, none⟩

def decodeItems : List Json.Value → List Decoded
  | [] => []
  | v :: vs => decode v :: decodeItems vs

def decodeMembers : List (String × Json.Value) → List (String × Decoded)
  | [] => []
  | (k, v) :: ms => (k, decode v) :: decodeMembers ms

end

def ofJson? (v : Json.Value) : Option Expr := (decode v).expr

/-- Reads one expression; what its kind does not allow is noticed when the whole of it is read. -/
def readWire (cs : List Char) : Except Json.DecodeError (Expr × List Char) := do
  let (t, cs) ← Json.Tagged.read kinds Json.Parser.strict cs
  Json.shaped (build? ⟨t.kind, t.body.map decode⟩) cs

def ofWire (text : String) : Except Json.DecodeError Expr :=
  Json.Parser.complete (readWire text.toList)

/-- Why a text is not the JSON of a predicate. -/
inductive WireError where
  | decode (e : Json.DecodeError)
  | notPredicate (kind : String)
deriving Repr, DecidableEq

def notPredicateMessage (kind : String) : String :=
  s!"operation '{kind}' does not produce a boolean"

def WireError.message : WireError → String
  | .decode e => e.message
  | .notPredicate kind => notPredicateMessage kind

/-- Reads an expression that has to be a predicate, which is checked before what follows it. -/
def predicateOfWire (text : String) : Except WireError Expr := do
  let (e, cs) ← (readWire text.toList).mapError .decode
  if e.isBoolean then (Json.Parser.complete (.ok (e, cs))).mapError .decode
  else .error (.notPredicate e.kind)

end Expr

end Quarry
