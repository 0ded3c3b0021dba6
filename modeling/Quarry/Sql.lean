import Quarry.Expr.Wire
import Quarry.Text.Alphabetic

/-!
Expressions as conditions of SQLite over documents in a text column: members are read with
`json_extract`, and what an expression ranges over becomes a subquery on `json_each`.
-/

namespace Quarry.Sql

/-- Why an expression has no condition. -/
inductive Error where
  | wildcard (field : String)
  | notField (kind : String)
  | unknownArgument (argument field : String)
  | noArgument (field : String)
  | invalidPath (e : Path.Error)
deriving Repr, DecidableEq

/-- The kind of expression that has no clause, and the reason. -/
def Error.unsupported? : Error → Option (String × String)
  | .wildcard name => some ("field", s!"wildcard in '{name}'")
  | .notField kind => some (kind, "expected a field")
  | _ => none

def Error.message : Error → String
  | .wildcard name => s!"cannot translate 'field': wildcard in '{name}'"
  | .notField kind => s!"cannot translate '{kind}': expected a field"
  | .unknownArgument argument name => s!"unknown argument '{argument}' in field '{name}'"
  | .noArgument name => s!"invalid field '{name}'"
  | .invalidPath e => e.message

/-! ### Paths and literals -/

/-- A text in which one character is doubled by another before it. -/
def guarded (c mark : Char) (s : String) : String :=
  String.join (s.toList.map fun d => if d = c then String.ofList [mark, c] else String.singleton d)

/-- A literal ends at the first apostrophe that is not doubled. -/
def quote (s : String) : String := "'" ++ guarded '\'' '\'' s ++ "'"

/-- Whether a label may stand without quotes. -/
def isPlain (name : String) : Bool :=
  name.toList.all fun c => c == '_' || Text.isAlphanumeric c

def step : Segment → String
  | .key name => if isPlain name then "." ++ name else ".\"" ++ guarded '"' '\\' name ++ "\""
  | .index i => s!"[{i}]"
  | .wildcard => "[*]"

/-- The path `$.a[0]."b c"` of the steps `a`, `0` and `b c`. -/
def jsonPath (steps : List Segment) : String := "$" ++ String.join (steps.map step)

def literal : Atom → String
  | .string s => quote s
  | .double x => Scalar.numberLayout.write x
  | .long n => toString n.toInt
  | .bool true => "TRUE"
  | .bool false => "FALSE"
  | .null => "NULL"

/-! ### Fields -/

/-- Where documents are, and the argument that stands for a whole document. -/
structure Table where
  column : String
  rootArg : String
deriving Repr, DecidableEq

/-- The arguments that range over elements, the innermost first. -/
abbrev Scope := List String

/-- The row that the innermost argument stands for; rows are numbered from the outermost. -/
def row (scope : Scope) : String := s!"j{scope.length}"

def row? (arg : String) : Scope → Option String
  | [] => none
  | x :: scope => if x = arg then some (row (x :: scope)) else row? arg scope

/-- What an argument stands for. -/
def base? (t : Table) (scope : Scope) (arg : String) : Option String :=
  match row? arg scope with
  | some r => some (r ++ ".value")
  | none => if arg = t.rootArg then some t.column else none

/-- The place a path starts from, and the steps from there. -/
def locatePath (t : Table) (scope : Scope) (name : String) (path : Path) :
    Except Error (String × List Segment) :=
  match path with
  | .key arg :: steps =>
    if Path.hasWildcard steps then .error (.wildcard name)
    else
      match base? t scope arg with
      | some base => .ok (base, steps)
      | none => .error (.unknownArgument arg name)
  | _ => .error (.noArgument name)

def locate (t : Table) (scope : Scope) : Expr → Except Error (String × List Segment)
  | .field name (some path) => locatePath t scope name path
  | .field name none =>
    match Path.parse name with
    | .ok path => locatePath t scope name path
    | .error e => .error (.invalidPath e)
  | e => .error (.notField e.kind)

/-- A call on a place. -/
def call (function base : String) (steps : List Segment) : String :=
  if steps.isEmpty then s!"{function}({base})"
  else s!"{function}({base}, {quote (jsonPath steps)})"

def field (t : Table) (scope : Scope) (e : Expr) : Except Error String := do
  let (base, steps) ← locate t scope e
  return if steps.isEmpty then base else call "json_extract" base steps

/-- The elements of an array field, one per row. -/
def rows (t : Table) (scope : Scope) (e : Expr) : Except Error String := do
  let (base, steps) ← locate t scope e
  return call "json_each" base steps

/-! ### Conditions -/

def unary (op : UnaryOp) (value : String) : String :=
  match op with
  | .abs => s!"abs({value})"
  | .ceiling => s!"ceil({value})"
  | .floor => s!"floor({value})"
  | .exp => s!"exp({value})"
  | .log => s!"ln({value})"
  | .sqrt => s!"sqrt({value})"
  | .negate => s!"-({value})"
  | .length => s!"length({value})"

def infixed (left operator right : String) : String := s!"({left} {operator} {right})"

def binary (op : BinaryOp) (l r : String) : String :=
  match op with
  | .contains => s!"(instr({l}, {r}) > 0)"
  | .startsWith => s!"(substr({l}, 1, length({r})) = {r})"
  | .endsWith => s!"(substr({l}, -length({r})) = {r})"
  | .equal => infixed l "=" r
  | .notEqual => infixed l "<>" r
  | op => infixed l op.symbol r

/-- Nothing equals null, so comparing with it becomes a test. -/
def nullTest? (op : BinaryOp) (right : Expr) : Option String :=
  match op, right with
  | .equal, .literal .null => some "IS NULL"
  | .notEqual, .literal .null => some "IS NOT NULL"
  | _, _ => none

def connective (k : Connective) (operands : List String) : String :=
  let mark := match k with
    | .and => " AND "
    | .or => " OR "
  "(" ++ mark.intercalate operands ++ ")"

def aggregate (op : AggregateOp) (source row value : String) : String :=
  let function := match op with
    | .min => "MIN"
    | .max => "MAX"
    | .sum => "SUM"
    | .average => "AVG"
  s!"(SELECT {function}({value}) FROM {source} AS {row})"

def quantifier (q : Quantifier) (source row predicate : String) : String :=
  match q with
  | .any => s!"EXISTS(SELECT 1 FROM {source} AS {row} WHERE {predicate})"
  | .all => s!"NOT EXISTS(SELECT 1 FROM {source} AS {row} WHERE NOT ({predicate}))"
  | .count => s!"(SELECT COUNT(*) FROM {source} AS {row} WHERE {predicate})"

mutual

/-- The condition or value of an expression. -/
def condition (t : Table) (scope : Scope) : Expr → Except Error String
  | .field name path => field t scope (.field name path)
  | .literal a => .ok (literal a)
  | .unary op e => do
    return unary op (← condition t scope e)
  | .binary op l r => do
    let left ← condition t scope l
    match nullTest? op r with
    | some test => return s!"({left} {test})"
    | none => return binary op left (← condition t scope r)
  | .connect k es => do
    return connective k (← conditions t scope es)
  | .not e => do
    return "NOT (" ++ (← condition t scope e) ++ ")"
  | .count f => do
    let (base, steps) ← locate t scope f
    return call "json_array_length" base steps
  | .quantifier q f x b => do
    let source ← rows t scope f
    return quantifier q source (row (x :: scope)) (← condition t (x :: scope) b)
  | .aggregate op f x b => do
    let source ← rows t scope f
    return aggregate op source (row (x :: scope)) (← condition t (x :: scope) b)

def conditions (t : Table) (scope : Scope) : List Expr → Except Error (List String)
  | [] => .ok []
  | e :: es => do
    return (← condition t scope e) :: (← conditions t scope es)

end

/-- What follows `WHERE`, for an expression of the whole document. -/
def clause (t : Table) (e : Expr) : Except Error String := condition t [] e

end Quarry.Sql
