import Quarry.Document.Lookup
import Quarry.Expr.Aggregate
import Quarry.Expr.Apply
import Quarry.Expr.Printer
import Quarry.Scalar.Json

namespace Quarry.Expr

/-- What an expression gives: one value, or one for each element that a wildcard met. -/
inductive Result where
  | single (s : Scalar)
  | many (ss : List Scalar)
deriving Repr, DecidableEq

namespace Result

def toScalar : Result → Scalar
  | .single s => s
  | .many _ => .error "expected a single value, got a sequence"

def values : Result → List Scalar
  | .single s => [s]
  | .many ss => ss

def firstError? (r : Result) : Option Scalar := r.values.find? Scalar.isError

def hasError (r : Result) : Bool := r.values.any Scalar.isError

def map (f : Scalar → Scalar) : Result → Result
  | .single s => .single (f s)
  | .many ss => .many (ss.map f)

/-- Element by element; a single operand goes with every element of a sequence. -/
def zip (f : Scalar → Scalar → Scalar) : Result → Result → Result
  | .single a, .single b => .single (f a b)
  | .many as, .single b => .many (as.map fun a => f a b)
  | .single a, .many bs => .many (bs.map fun b => f a b)
  | .many as, .many bs =>
    if as.length = bs.length then .many (List.zipWith f as bs)
    else .single (.error s!"sequence length mismatch: {as.length} vs {bs.length}")

def toJson : Result → Json.Value
  | .single s => s.toJson
  | .many ss => .array (ss.map Scalar.toJson)

end Result

/-- The nodes that arguments are bound to, the innermost first. -/
abbrev Bindings := List (String × Node)

/-- The nodes that steps lead to; a missing member or element stays, as no node. -/
def resolveSteps : List Segment → List (Option Node) → List (Option Node)
  | [], nodes => nodes
  | .wildcard :: steps, nodes =>
    resolveSteps steps (nodes.flatMap fun n => ((n.bind Node.elements?).getD []).map some)
  | step :: steps, nodes => resolveSteps steps (nodes.map fun n => n.bind fun m => m.step? step)

def follow (n : Node) : List Segment → Option Node
  | [] => some n
  | step :: steps => (n.step? step).bind fun m => follow m steps

/-- Where a field begins: the node its argument is bound to, and the steps from there. -/
def anchor (bindings : Bindings) (name : String) (path : Option Path) :
    Except Scalar (Node × List Segment) :=
  match path.elim (Path.parse name) .ok with
  | .error e => .error (.error e.message)
  | .ok (.key arg :: steps) =>
    match Json.find? arg bindings with
    | some n => .ok (n, steps)
    | none => .error (.error s!"unknown argument '{arg}' in field '{name}'")
  | .ok _ => .error (.error s!"invalid field '{name}'")

def evalField (bindings : Bindings) (name : String) (path : Option Path) : Result :=
  match anchor bindings name path with
  | .error e => .single e
  | .ok (n, steps) =>
    if Path.hasWildcard steps then
      .many ((resolveSteps steps [some n]).map fun m => (m.map Node.scalar).getD .null)
    else .single (((follow n steps).map Node.scalar).getD .null)

theorem evalField_root (arg name : String) (root : Node) (steps : List Segment) :
    evalField [(arg, root)] name (some (.key arg :: steps)) =
      if Path.hasWildcard steps then
        .many ((resolveSteps steps [some root]).map fun m => (m.map Node.scalar).getD .null)
      else .single (((follow root steps).map Node.scalar).getD .null) := by
  simp [evalField, anchor, Json.find?]

/-- The elements that a quantifier or aggregate ranges over. -/
def elements (bindings : Bindings) : Expr → Except Scalar (List Node)
  | .field name path =>
    match anchor bindings name path with
    | .error e => .error e
    | .ok (n, steps) =>
      if Path.hasWildcard steps then .ok ((resolveSteps steps [some n]).filterMap id)
      else
        match (follow n steps).bind Node.elements? with
        | some ns => .ok ns
        | none => .error (.error s!"{name} is not an array")
  | e => .error (.error s!"'{e.text}' is not a field")

/-- An error that arises in a node names the node; one from an operand passes unchanged. -/
def annotate (e : Expr) (operandError : Bool) (r : Result) : Result :=
  if operandError then r
  else r.map fun s =>
    match s with
    | .error message => .error s!"{message} in {e.text}"
    | s => s

/-- How many predicates hold, or the first value that is none. -/
def countTrue (range : String) (q : Quantifier) : Nat → List Scalar → Except Scalar Nat
  | n, [] => .ok n
  | n, .bool true :: ss => countTrue range q (n + 1) ss
  | n, .bool false :: ss => countTrue range q n ss
  | n, .null :: ss => countTrue range q n ss
  | _, .error message :: _ => .error (.error message)
  | _, s :: _ =>
    .error (.error s!"predicate of {range}.{q.name} must be bool, got {s.described}")

def quantified (range : String) (q : Quantifier) (values : List Scalar) : Scalar :=
  match countTrue range q 0 values with
  | .error e => e
  | .ok n =>
    match q with
    | .any => .bool (0 < n)
    | .all => .bool (n = values.length)
    | .count => .long (Int64.ofNat n)

/-- An error of an element comes before everything else. -/
def aggregateAll (op : AggregateOp) (range : String) (values : List Scalar) : Scalar :=
  match values.find? Scalar.isError with
  | some e => e
  | none => aggregated op range (values.filter fun s => !s.isNull)

mutual

def eval (bindings : Bindings) : Expr → Result
  | .field name path => evalField bindings name path
  | .literal a => .single a.toScalar
  | .unary op e =>
    let r := eval bindings e
    annotate (.unary op e) r.hasError (r.map op.apply)
  | .binary op l r =>
    let a := eval bindings l
    let b := eval bindings r
    annotate (.binary op l r) (a.hasError || b.hasError) (a.zip op.apply b)
  | .connect k es =>
    let ss := evalAll bindings es
    annotate (.connect k es) (ss.any Scalar.isError) (.single (Scalar.connect k ss))
  | .not e =>
    let s := (eval bindings e).toScalar
    annotate (.not e) s.isError (.single s.not)
  | .quantifier q f x b =>
    match elements bindings f with
    | .error e => .single e
    | .ok ns =>
      .single (quantified f.text q (ns.map fun n => (eval ((x, n) :: bindings) b).toScalar))
  | .aggregate op f x b =>
    match elements bindings f with
    | .error e => .single e
    | .ok ns =>
      .single (aggregateAll op f.text (ns.map fun n => (eval ((x, n) :: bindings) b).toScalar))
  | .count f =>
    match elements bindings f with
    | .error e => .single e
    | .ok ns => .single (.long (Int64.ofNat ns.length))

def evalAll (bindings : Bindings) : List Expr → List Scalar
  | [] => []
  | e :: es => (eval bindings e).toScalar :: evalAll bindings es

end

theorem evalAll_eq_map (bindings : Bindings) (es : List Expr) :
    evalAll bindings es = es.map fun e => (eval bindings e).toScalar := by
  induction es with
  | nil => rfl
  | cons e es ih => simp [evalAll, ih]

end Quarry.Expr
