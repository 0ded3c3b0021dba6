import Quarry.Scalar.Basic
import Quarry.Text.Quoted

namespace Quarry.Expr

inductive Token where
  | float (x : Float)
  | integer (n : Int64)
  | string (s : String)
  | boolean (b : Bool)
  | null
  | identifier (name : String)
  | arrow
  | equal
  | notEqual
  | less
  | greater
  | lessOrEqual
  | greaterOrEqual
  | plus
  | minus
  | star
  | slash
  | percent
  | and
  | or
  | bang
  | openBracket
  | closeBracket
  | openParen
  | closeParen
  | dot
  | comma
  | eof
deriving Repr, DecidableEq, Inhabited

/-- How a token shows in messages. -/
def Token.display : Token → String
  | .float x => "Float(" ++ Scalar.numberLayout.write x ++ ")"
  | .integer n => "Integer(" ++ toString n.toInt ++ ")"
  | .string s => "String(" ++ Text.quoted s ++ ")"
  | .boolean b => "Boolean(" ++ (if b then "true" else "false") ++ ")"
  | .null => "Null"
  | .identifier name => "Identifier(" ++ Text.quoted name ++ ")"
  | .arrow => "Arrow"
  | .equal => "EqEq"
  | .notEqual => "NotEq"
  | .less => "Lt"
  | .greater => "Gt"
  | .lessOrEqual => "LtEq"
  | .greaterOrEqual => "GtEq"
  | .plus => "Plus"
  | .minus => "Minus"
  | .star => "Star"
  | .slash => "Slash"
  | .percent => "Percent"
  | .and => "AndAnd"
  | .or => "OrOr"
  | .bang => "Bang"
  | .openBracket => "LBracket"
  | .closeBracket => "RBracket"
  | .openParen => "LParen"
  | .closeParen => "RParen"
  | .dot => "Dot"
  | .comma => "Comma"
  | .eof => "Eof"

/-- Why a text is not an expression. -/
inductive SyntaxFault where
  | unknownEscape (c : Char)
  | endAfterBackslash
  | missingQuote
  | invalidNumber (text : String)
  | integerOutOfRange (text : String)
  | loneEquals
  | unexpectedCharacter (c : Char)
  | expected (wanted got : Token)
  | expectedIdentifier (got : Token)
  | unexpectedToken (got : Token)
  | expectedIndex
  | oneArgument (name : String)
  | unknownFunction (name : String)
  | notOnField (method : String)
  | unknownMethod (method : String)
deriving Repr, DecidableEq

def SyntaxFault.message : SyntaxFault → String
  | .unknownEscape c => "invalid escape sequence: \\" ++ c.toString
  | .endAfterBackslash => "unterminated string: unexpected end after backslash"
  | .missingQuote => "unterminated string: missing closing quote"
  | .invalidNumber text => "invalid number '" ++ text ++ "'"
  | .integerOutOfRange text => "integer out of range '" ++ text ++ "'"
  | .loneEquals => "unexpected '=' (did you mean '==' or '=>'?)"
  | .unexpectedCharacter c => "unexpected character '" ++ c.toString ++ "'"
  | .expected wanted got => "expected " ++ wanted.display ++ ", got " ++ got.display
  | .expectedIdentifier got => "expected identifier, got " ++ got.display
  | .unexpectedToken got => "unexpected token " ++ got.display
  | .expectedIndex => "expected index or '*' in brackets"
  | .oneArgument name => name ++ " expects one argument"
  | .unknownFunction name => "unknown function '" ++ name ++ "'"
  | .notOnField method => method ++ " must be called on a field"
  | .unknownMethod method => "unknown method '" ++ method ++ "'"

/-- A fault and the character at which it was noticed. -/
structure SyntaxError where
  fault : SyntaxFault
  position : Nat
deriving Repr, DecidableEq

def SyntaxError.message (e : SyntaxError) : String := s!"{e.fault.message} at position {e.position}"

end Quarry.Expr
