import Quarry.Expr.Basic

namespace Quarry

def BinaryOp.precedence (op : BinaryOp) : Nat :=
  match op with
  | .add => 4
  | .subtract => 4
  | .multiply => 5
  | .divide => 5
  | .modulo => 5
  | op => if op.isComparison then 3 else 7

def Connective.precedence : Connective → Nat
  | .and => 2
  | .or => 1

/-- Whether the text of a value begins with a minus sign. -/
def Atom.isNegative : Atom → Bool
  | .long n => n < 0
  | .double x => Numeral.isNegative x
  | _ => false

namespace Expr

/-- How tightly an expression binds when it is written; a connective of one operand is a call. -/
def precedence : Expr → Nat
  | .connect _ [] => 8
  | .connect _ [_] => 8
  | .connect .or _ => 1
  | .connect .and _ => 2
  | .binary op _ _ => op.precedence
  | .not _ => 6
  | .unary .negate _ => 6
  | .literal a => if a.isNegative then 6 else 8
  | _ => 8

def escapeChar (c : Char) : String :=
  if c = '\'' then "\\'"
  else if c = '\\' then "\\\\"
  else if c = '\n' then "\\n"
  else if c = '\t' then "\\t"
  else if c = '\r' then "\\r"
  else c.toString

def quoted (s : String) : String := "'" ++ String.join (s.toList.map escapeChar) ++ "'"

def atomText : Atom → String
  | .string s => quoted s
  | a => a.toScalar.display

/-- The text of an operand in parentheses, unless it binds as tightly as `least`. -/
def inParens (least precedence : Nat) (text : String) : String :=
  if precedence < least then "(" ++ text ++ ")" else text

mutual

/-- The text of an expression, with the parentheses it needs. -/
def text : Expr → String
  | .field name _ => name
  | .literal a => atomText a
  | .unary .negate e => "-" ++ inParens 7 e.precedence e.text
  | .unary .length e => inParens 8 e.precedence e.text ++ ".Length()"
  | .unary op e => op.name ++ "(" ++ e.text ++ ")"
  | .binary op l r =>
    if op.isMethod then
      inParens 8 l.precedence l.text ++ "." ++ op.symbol ++ "(" ++ r.text ++ ")"
    else
      let p := op.precedence
      inParens (if p = 3 then 4 else p) l.precedence l.text ++ " " ++ op.symbol ++ " " ++
        inParens (p + 1) r.precedence r.text
  | .aggregate op f x b => f.text ++ "." ++ op.name ++ "(" ++ x ++ " => " ++ b.text ++ ")"
  | .count f => f.text ++ ".Count()"
  | .connect _ [] => ""
  | .connect k [e] => k.name ++ "(" ++ e.text ++ ")"
  | .connect k (e :: es) =>
    inParens (k.precedence + 1) e.precedence e.text ++ textAfter k es
  | .not e => "!" ++ inParens 7 e.precedence e.text
  | .quantifier q f x b => f.text ++ "." ++ q.name ++ "(" ++ x ++ " => " ++ b.text ++ ")"

/-- The further operands of a connective. -/
def textAfter (k : Connective) : List Expr → String
  | [] => ""
  | e :: es =>
    " " ++ k.symbol ++ " " ++ inParens (k.precedence + 1) e.precedence e.text ++
      textAfter k es

end

end Expr

end Quarry
