import Quarry.Config
import Quarry.Document.Json
import Quarry.Expr.Eval
import Quarry.Expr.Fold
import Quarry.Expr.Parser
import Quarry.Expr.Scope

namespace Quarry

/-- Why a text is not a lambda that can be run. -/
inductive CompileError where
  | parse (e : Expr.SyntaxError)
  | wire (e : Expr.WireError)
  | scope (e : Expr.ScopeError)
deriving Repr, DecidableEq

def CompileError.message : CompileError → String
  | .parse e => e.message
  | .wire e => e.message
  | .scope e => e.message

/-- Why a lambda gave no answer for a document. -/
inductive RunError where
  | read (e : Json.ReadError)
  | eval (message : String)
deriving Repr, DecidableEq

def RunError.message : RunError → String
  | .read e => e.message
  | .eval message => message

/-- A checked and folded expression of one argument, with the document it was run on last. -/
structure Lambda where
  arg : String
  body : Expr
  document : Document
  bindings : Expr.Bindings

namespace Lambda

def make (arg : String) (body : Expr) (config : Config) : Except Expr.ScopeError Lambda := do
  let body ← Expr.resolve [arg] body
  return ⟨arg, body.fold, .empty config.maxDepth, []⟩

def parse (text : String) (config : Config) : Except CompileError Lambda := do
  let (arg, body) ← (Expr.parseLambda text config.rootArg).mapError .parse
  (make arg body config).mapError .scope

def ofWire (text : String) (config : Config) : Except CompileError Lambda := do
  let body ← (Expr.ofWire text).mapError fun e => .wire (.decode e)
  (make config.rootArg body config).mapError .scope

/-- Forgets the document. -/
def reset (l : Lambda) : Lambda := { l with document := l.document.clear, bindings := [] }

/-- Reads a document and binds the argument to its root. -/
def load (input : Text.Bytes) (l : Lambda) : Except RunError Node × Lambda :=
  match l.document.parse input with
  | (d, some e) => (.error (.read e), { l with document := d, bindings := [] })
  | (d, none) =>
    match d.root with
    | none => (.error (.read ⟨.emptyDocument, 0⟩), { l with document := d, bindings := [] })
    | some root => (.ok root, { l with document := d, bindings := [(l.arg, root)] })

def evalResult (input : Text.Bytes) (l : Lambda) : Except RunError Expr.Result × Lambda :=
  match l.load input with
  | (.error e, l) => (.error e, l)
  | (.ok _, l) => (.ok (Expr.eval l.bindings l.body), l)

/-- The steps of a body that is a field without wildcards. -/
def plainField? : Expr → Option (List Segment)
  | .field _ (some path) => if Path.hasWildcard path then none else some path.tail
  | _ => none

/-- The result as JSON; a plain field gives all that is under it. -/
def eval (input : Text.Bytes) (l : Lambda) : Except RunError Json.Value × Lambda :=
  match l.load input with
  | (.error e, l) => (.error e, l)
  | (.ok root, l) =>
    match plainField? l.body with
    | some steps => (.ok (((Expr.follow root steps).map Node.toJson).getD .null), l)
    | none =>
      let r := Expr.eval l.bindings l.body
      match r.firstError? with
      | some e => (.error (.eval (e.errorMessage?.getD "")), l)
      | none => (.ok r.toJson, l)

end Lambda

/-- How a filter decides. -/
inductive FilterKind where
  /-- The same answer for every document, which is not even read. -/
  | constant (answer : Bool)
  | lambda
deriving Repr, DecidableEq

/-- A lambda that is used as a predicate. -/
structure Filter where
  lambda : Lambda

namespace Filter

def kind (f : Filter) : FilterKind :=
  match f.lambda.body with
  | .literal (.bool b) => .constant b
  | _ => .lambda

def parse (text : String) (config : Config) : Except CompileError Filter :=
  (Lambda.parse text config).map Filter.mk

/-- Only predicates are taken. -/
def ofWire (text : String) (config : Config) : Except CompileError Filter := do
  let body ← (Expr.predicateOfWire text).mapError .wire
  (Lambda.make config.rootArg body config).mapError .scope |>.map Filter.mk

def reset (f : Filter) : Filter := ⟨f.lambda.reset⟩

def decide (s : Scalar) : Except RunError Bool :=
  match s with
  | .bool b => .ok b
  | .error message => .error (.eval message)
  | _ => .ok false

/-- A document passes only if the predicate is true of it. -/
def filter (input : Text.Bytes) (f : Filter) : Except RunError Bool × Filter :=
  match f.kind with
  | .constant b => (.ok b, f)
  | .lambda =>
    match f.lambda.evalResult input with
    | (.error e, l) => (.error e, ⟨l⟩)
    | (.ok r, l) => (decide r.toScalar, ⟨l⟩)

def eval (input : Text.Bytes) (f : Filter) : Except RunError Json.Value × Filter :=
  match f.lambda.eval input with
  | (v, l) => (v, ⟨l⟩)

end Filter

end Quarry
