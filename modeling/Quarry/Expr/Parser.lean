import Quarry.Expr.Basic
import Quarry.Expr.Lexer

namespace Quarry.Expr

namespace Parser

/-- The tokens still to be read; the last one is the end and stays. -/
abbrev Tokens := List Located

/-- Reads a phrase at the head of the tokens. -/
abbrev Phrase (α : Type) := Tokens → Except SyntaxError (α × Tokens)

def current (ts : Tokens) : Token := (ts.head?.map Located.token).getD .eof

/-- The token some places after the current one. -/
def peek (n : Nat) (ts : Tokens) : Token := (ts[n]?.map Located.token).getD .eof

def position (ts : Tokens) : Nat := (ts.head?.map Located.position).getD 0

def advance : Tokens → Tokens
  | _ :: t :: ts => t :: ts
  | ts => ts

def fail {α : Type} (ts : Tokens) (fault : SyntaxFault) : Except SyntaxError α :=
  .error ⟨fault, position ts⟩

/-- Past a token that has to be there. -/
def expect (wanted : Token) (ts : Tokens) : Except SyntaxError Tokens :=
  if current ts = wanted then .ok (advance ts) else fail ts (.expected wanted (current ts))

def identifier : Phrase String := fun ts =>
  match current ts with
  | .identifier name => .ok (name, advance ts)
  | t => fail ts (.expectedIdentifier t)

/-! ### Operators -/

def functionOp? (name : String) : Option UnaryOp :=
  [UnaryOp.abs, .ceiling, .floor, .exp, .log, .sqrt, .negate].find? fun op => op.name == name

def connectiveOf? (name : String) : Option Connective :=
  [Connective.and, .or].find? fun k => k.name == name

def methodOp? (name : String) : Option BinaryOp :=
  [BinaryOp.contains, .startsWith, .endsWith].find? fun op => op.symbol == name

def quantifierOf? (name : String) : Option Quantifier :=
  [Quantifier.any, .all, .count].find? fun q => q.name == name

def aggregateOf? (name : String) : Option AggregateOp :=
  [AggregateOp.min, .max, .sum, .average].find? fun op => op.name == name

def multiplicativeOp? : Token → Option BinaryOp
  | .star => some .multiply
  | .slash => some .divide
  | .percent => some .modulo
  | _ => none

def additiveOp? : Token → Option BinaryOp
  | .plus => some .add
  | .minus => some .subtract
  | _ => none

def comparisonOp? : Token → Option BinaryOp
  | .equal => some .equal
  | .notEqual => some .notEqual
  | .less => some .lessThan
  | .greater => some .greaterThan
  | .lessOrEqual => some .lessThanOrEqual
  | .greaterOrEqual => some .greaterThanOrEqual
  | _ => none

def literal? : Token → Option Atom
  | .float x => some (.double x)
  | .integer n => some (.long n)
  | .string s => some (.string s)
  | .boolean b => some (.bool b)
  | .null => some .null
  | _ => none

/-! ### Fields -/

/-- Whether a step `.name` follows that is no call. -/
def memberFollows (ts : Tokens) : Bool :=
  match current ts, peek 1 ts, peek 2 ts with
  | .dot, .identifier _, .openParen => false
  | .dot, .identifier _, _ => true
  | _, _, _ => false

/-- What brackets after a field hold. -/
def bracketed : Phrase String := fun ts =>
  match current ts with
  | .integer n =>
    if 0 ≤ n then .ok ("[" ++ toString n.toInt ++ "]", advance ts) else fail ts .expectedIndex
  | .star => .ok ("[*]", advance ts)
  | _ => fail ts .expectedIndex

/-- The steps after the argument of a field, of which `name` is the text so far. -/
def fieldSteps : Nat → String → Phrase Expr
  | 0, name, ts => .ok (.field name none, ts)
  | fuel + 1, name, ts =>
    if memberFollows ts then do
      let (member, ts) ← identifier (advance ts)
      fieldSteps fuel (name ++ "." ++ member) ts
    else if current ts = .openBracket then do
      let (inner, ts) ← bracketed (advance ts)
      let ts ← expect .closeBracket ts
      fieldSteps fuel (name ++ inner) ts
    else .ok (.field name none, ts)

/-! ### Phrases that hold expressions

Each takes the parser of a whole expression for what stands in parentheses. -/

/-- Arguments up to the closing parenthesis; a comma may follow the last. -/
def argumentsRest (expr : Phrase Expr) : Nat → Phrase (List Expr)
  | 0, ts => fail ts (.expected .closeParen (current ts))
  | fuel + 1, ts =>
    if current ts = .closeParen then .ok ([], advance ts)
    else do
      let (e, ts) ← expr ts
      if current ts = .closeParen then .ok ([e], advance ts)
      else do
        let ts ← expect .comma ts
        let (es, ts) ← argumentsRest expr fuel ts
        return (e :: es, ts)

def arguments (expr : Phrase Expr) : Phrase (List Expr) := fun ts => do
  let ts ← expect .openParen ts
  argumentsRest expr ts.length ts

/-- The call of a function by its name. -/
def function (expr : Phrase Expr) (name : String) : Phrase Expr := fun ts => do
  let (args, ts) ← arguments expr ts
  match functionOp? name, connectiveOf? name, args with
  | some op, _, [e] => return (.unary op e, ts)
  | some _, _, _ => fail ts (.oneArgument name)
  | none, some k, e :: es => return (.connect k (e :: es), ts)
  | none, _, _ => fail ts (.unknownFunction name)

def primary (expr : Phrase Expr) : Phrase Expr := fun ts =>
  match literal? (current ts) with
  | some a => .ok (.literal a, advance ts)
  | none =>
    match current ts with
    | .openParen => do
      let (e, ts) ← expr (advance ts)
      let ts ← expect .closeParen ts
      return (e, ts)
    | .identifier name =>
      let ts := advance ts
      if current ts = .openParen then function expr name ts else fieldSteps ts.length name ts
    | t => fail ts (.unexpectedToken t)

/-- `arg => body` and the closing parenthesis. -/
def lambdaRest (expr : Phrase Expr) : Phrase (String × Expr) := fun ts => do
  let (arg, ts) ← identifier ts
  let ts ← expect .arrow ts
  let (body, ts) ← expr ts
  let ts ← expect .closeParen ts
  return ((arg, body), ts)

/-- A call on a field that ranges over its elements. -/
def elementCall (expr : Phrase Expr) (range : Expr) (name : String) : Phrase Expr := fun ts => do
  if !range.isField then fail ts (.notOnField name)
  else do
    let ts ← expect .openParen ts
    if name = "Count" ∧ current ts = .closeParen then return (.count range, advance ts)
    else
      match quantifierOf? name, aggregateOf? name with
      | some q, _ => do
        let ((arg, body), ts) ← lambdaRest expr ts
        return (.quantifier q range arg body, ts)
      | none, some op => do
        let ((arg, body), ts) ← lambdaRest expr ts
        return (.aggregate op range arg body, ts)
      | none, none => fail ts (.unknownMethod name)

/-- A call on what stands before the point. -/
def method (expr : Phrase Expr) (receiver : Expr) : Phrase Expr := fun ts => do
  let (name, ts) ← identifier ts
  match methodOp? name with
  | some op => do
    let (args, ts) ← arguments expr ts
    match args with
    | [e] => return (.binary op receiver e, ts)
    | _ => fail ts (.oneArgument name)
  | none =>
    if name = "Length" then do
      let ts ← expect .openParen ts
      let ts ← expect .closeParen ts
      return (.unary .length receiver, ts)
    else elementCall expr receiver name ts

def methods (expr : Phrase Expr) : Nat → Expr → Phrase Expr
  | 0, e, ts => .ok (e, ts)
  | fuel + 1, e, ts =>
    if current ts = .dot then do
      let (e, ts) ← method expr e (advance ts)
      methods expr fuel e ts
    else .ok (e, ts)

def postfixed (expr : Phrase Expr) : Phrase Expr := fun ts => do
  let (e, ts) ← primary expr ts
  methods expr ts.length e ts

/-- The negative of an expression; that of a number is a number. -/
def negated : Expr → Expr
  | .literal (.long n) => .literal (.long (-n))
  | .literal (.double x) => .literal (.double (-x))
  | e => .unary .negate e

def signed (expr : Phrase Expr) : Nat → Phrase Expr
  | 0, ts => fail ts (.unexpectedToken (current ts))
  | fuel + 1, ts =>
    match current ts with
    | .bang => do
      let (e, ts) ← signed expr fuel (advance ts)
      return (.not e, ts)
    | .minus => do
      let (e, ts) ← signed expr fuel (advance ts)
      return (negated e, ts)
    | _ => postfixed expr ts

/-- Further operands of operators that associate to the left. -/
def chainRest (op? : Token → Option BinaryOp) (operand : Phrase Expr) : Nat → Expr → Phrase Expr
  | 0, e, ts => .ok (e, ts)
  | fuel + 1, e, ts =>
    match op? (current ts) with
    | some op => do
      let (r, ts) ← operand (advance ts)
      chainRest op? operand fuel (.binary op e r) ts
    | none => .ok (e, ts)

def chain (op? : Token → Option BinaryOp) (operand : Phrase Expr) : Phrase Expr := fun ts => do
  let (e, ts) ← operand ts
  chainRest op? operand ts.length e ts

def multiplicative (expr : Phrase Expr) : Phrase Expr :=
  chain multiplicativeOp? fun ts => signed expr ts.length ts

def additive (expr : Phrase Expr) : Phrase Expr := chain additiveOp? (multiplicative expr)

/-- Comparisons do not chain. -/
def comparison (expr : Phrase Expr) : Phrase Expr := fun ts => do
  let (l, ts) ← additive expr ts
  match comparisonOp? (current ts) with
  | some op => do
    let (r, ts) ← additive expr (advance ts)
    return (.binary op l r, ts)
  | none => return (l, ts)

/-- Further operands of a connective. -/
def operandsRest (mark : Token) (operand : Phrase Expr) : Nat → Phrase (List Expr)
  | 0, ts => .ok ([], ts)
  | fuel + 1, ts =>
    if current ts = mark then do
      let (e, ts) ← operand (advance ts)
      let (es, ts) ← operandsRest mark operand fuel ts
      return (e :: es, ts)
    else .ok ([], ts)

/-- One operand stands for itself, more make one connective. -/
def connected (k : Connective) (mark : Token) (operand : Phrase Expr) : Phrase Expr := fun ts => do
  let (e, ts) ← operand ts
  let (es, ts) ← operandsRest mark operand ts.length ts
  match es with
  | [] => return (e, ts)
  | es => return (.connect k (e :: es), ts)

def conjunction (expr : Phrase Expr) : Phrase Expr := connected .and .and (comparison expr)

def disjunction (expr : Phrase Expr) : Phrase Expr := connected .or .or (conjunction expr)

/-- An expression whose parentheses nest less than `depth` deep. -/
def expression : Nat → Phrase Expr
  | 0, ts => fail ts (.unexpectedToken (current ts))
  | depth + 1, ts => disjunction (expression depth) ts

/-- An expression that takes all tokens. -/
def whole (ts : Tokens) : Except SyntaxError Expr := do
  let (e, ts) ← expression ts.length ts
  let _ ← expect .eof ts
  return e

/-- `arg => body`, or a body alone. -/
def lambda (defaultArg : String) (ts : Tokens) : Except SyntaxError (String × Expr) :=
  match current ts, peek 1 ts with
  | .identifier arg, .arrow => (whole (advance (advance ts))).map (arg, ·)
  | _, _ => (whole ts).map (defaultArg, ·)

end Parser

def parse (text : String) : Except SyntaxError Expr := do
  Parser.whole (← tokenize text)

def parseLambda (text defaultArg : String) : Except SyntaxError (String × Expr) := do
  Parser.lambda defaultArg (← tokenize text)

end Quarry.Expr
