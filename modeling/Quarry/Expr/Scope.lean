import Quarry.Expr.Wire

namespace Quarry.Expr

/-- Why an expression cannot be evaluated, whatever the document. -/
inductive ScopeError where
  | unknownArgument (argument field : String)
  | noOperands (kind : String)
  | notIterable (node : String)
  | invalidPath (e : Path.Error)
deriving Repr, DecidableEq

def ScopeError.message : ScopeError → String
  | .unknownArgument argument name => s!"unknown argument '{argument}' in field '{name}'"
  | .noOperands kind => s!"'{kind}' requires at least one operand"
  | .notIterable node => s!"'{node}' must iterate a field"
  | .invalidPath e => e.message

/-- The path of a field, the first step of which has to name an argument in scope. -/
def resolveField (scope : List String) (name : String) : Except ScopeError Expr :=
  match Path.parse name with
  | .error e => .error (.invalidPath e)
  | .ok (.key arg :: rest) =>
    if scope.contains arg then .ok (.field name (some (.key arg :: rest)))
    else .error (.unknownArgument arg name)
  | .ok _ => .error (.unknownArgument "" name)

/-- What is iterated has to be a field. -/
def resolveIterated (scope : List String) (node : String) : Expr → Except ScopeError Expr
  | .field name _ => resolveField scope name
  | _ => .error (.notIterable node)

mutual

/-- Checks an expression against the arguments in scope and gives every field its path. -/
def resolve (scope : List String) : Expr → Except ScopeError Expr
  | .field name _ => resolveField scope name
  | .literal a => .ok (.literal a)
  | .unary op e => do
    return .unary op (← resolve scope e)
  | .binary op l r => do
    return .binary op (← resolve scope l) (← resolve scope r)
  | .aggregate op f x b => do
    return .aggregate op (← resolveIterated scope "aggregate" f) x (← resolve (x :: scope) b)
  | .count f => do
    return .count (← resolveIterated scope "count" f)
  | .connect k es =>
    if es.isEmpty then .error (.noOperands k.kind)
    else do
      return .connect k (← resolveAll scope es)
  | .not e => do
    return .not (← resolve scope e)
  | .quantifier q f x b => do
    return .quantifier q (← resolveIterated scope "quantifier" f) x (← resolve (x :: scope) b)

def resolveAll (scope : List String) : List Expr → Except ScopeError (List Expr)
  | [] => .ok []
  | e :: es => do
    return (← resolve scope e) :: (← resolveAll scope es)

end

end Quarry.Expr
