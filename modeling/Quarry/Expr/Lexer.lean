import Quarry.Expr.Token
import Quarry.Numeral.Reading
import Quarry.Scalar.Arithmetic
import Quarry.Text.Alphabetic
import Quarry.Text.Blank

namespace Quarry.Expr

/-- A token and the number of the character it begins with. -/
structure Located where
  token : Token
  position : Nat
deriving Repr, DecidableEq

namespace Lexer

/-- The characters still to be read, and the number of the first of them. -/
structure Place where
  rest : List Char
  position : Nat
deriving Repr, DecidableEq

abbrev Lexed (α : Type) := Except SyntaxError (α × Place)

def fail {α : Type} (fault : SyntaxFault) (position : Nat) : Lexed α := .error ⟨fault, position⟩

def skipBlanks : List Char → Nat → Place
  | [], p => ⟨[], p⟩
  | c :: cs, p => if Text.isBlank c then skipBlanks cs (p + 1) else ⟨c :: cs, p⟩

/-! ### Strings -/

def escape? (c : Char) : Option Char :=
  if c = 'n' then some '\n'
  else if c = 't' then some '\t'
  else if c = 'r' then some '\r'
  else if c = '"' ∨ c = '\'' ∨ c = '\\' then some c
  else none

/-- A string up to its closing quote; `read` holds its beginning in reverse. -/
def stringChars (quote : Char) : List Char → Nat → List Char → Lexed String
  | [], p, _ => fail .missingQuote p
  | c :: cs, p, read =>
    if c = quote then .ok (String.ofList read.reverse, ⟨cs, p + 1⟩)
    else if c = '\\' then
      match cs with
      | [] => fail .endAfterBackslash (p + 1)
      | e :: cs =>
        match escape? e with
        | some c => stringChars quote cs (p + 2) (c :: read)
        | none => fail (.unknownEscape e) (p + 1)
    else stringChars quote cs (p + 1) (c :: read)

/-! ### Numbers -/

def startsWithDigit (cs : List Char) : Bool := cs.head?.any Char.isDigit

def isSign (c : Char) : Bool := c == '+' || c == '-'

/-- Whether an exponent follows the letter that announces it. -/
def exponentFollows : List Char → Bool
  | [] => false
  | c :: cs => c.isDigit || (isSign c && startsWithDigit cs)

/-- The characters of a number, whether it is floating point, and what follows it. -/
def numberChars (isFloat : Bool) : List Char → List Char × Bool × List Char
  | [] => ([], isFloat, [])
  | c :: cs =>
    if c.isDigit then
      let (ds, f, rest) := numberChars isFloat cs
      (c :: ds, f, rest)
    else if c = '.' && !isFloat && startsWithDigit cs then
      let (ds, f, rest) := numberChars true cs
      (c :: ds, f, rest)
    else if (c = 'e' || c = 'E') && exponentFollows cs then
      match cs with
      | s :: cs =>
        if isSign s then
          let (ds, f, rest) := numberChars true cs
          (c :: s :: ds, f, rest)
        else
          let (ds, f, rest) := numberChars true (s :: cs)
          (c :: ds, f, rest)
      | [] => ([c], isFloat, [])
    else ([], isFloat, c :: cs)

def number (cs : List Char) (p : Nat) : Lexed Token :=
  let (ds, isFloat, rest) := numberChars false cs
  let text := String.ofList ds
  let stop := p + ds.length
  if isFloat then
    match Numeral.ofText? text with
    | some x => .ok (.float x, ⟨rest, stop⟩)
    | none => fail (.invalidNumber text) stop
  else
    match (Numeral.integer? text).bind Scalar.long? with
    | some n => .ok (.integer n, ⟨rest, stop⟩)
    | none => fail (.integerOutOfRange text) stop

/-! ### Words -/

def isWordStart (c : Char) : Bool := c == '_' || Text.isAlphabetic c

def isWordChar (c : Char) : Bool := c == '_' || Text.isAlphanumeric c

def word (s : String) : Token :=
  if s = "true" then .boolean true
  else if s = "false" then .boolean false
  else if s = "null" then .null
  else .identifier s

/-! ### Marks -/

def single? (c : Char) : Option Token :=
  match c with
  | '.' => some .dot
  | ',' => some .comma
  | '+' => some .plus
  | '-' => some .minus
  | '*' => some .star
  | '/' => some .slash
  | '%' => some .percent
  | '(' => some .openParen
  | ')' => some .closeParen
  | '[' => some .openBracket
  | ']' => some .closeBracket
  | '!' => some .bang
  | '<' => some .less
  | '>' => some .greater
  | _ => none

def pair? (c d : Char) : Option Token :=
  match c, d with
  | '=', '=' => some .equal
  | '=', '>' => some .arrow
  | '!', '=' => some .notEqual
  | '<', '=' => some .lessOrEqual
  | '>', '=' => some .greaterOrEqual
  | '&', '&' => some .and
  | '|', '|' => some .or
  | _, _ => none

/-- The longest mark at the head of a text, and what follows it. -/
def mark? (c : Char) (cs : List Char) (p : Nat) : Option (Token × Place) :=
  match cs.head?.bind (pair? c) with
  | some t => some (t, ⟨cs.tail, p + 2⟩)
  | none => (single? c).map fun t => (t, ⟨cs, p + 1⟩)

/-- The token that begins with the character `c`. -/
def tokenAt (c : Char) (cs : List Char) (p : Nat) : Lexed Token :=
  match mark? c cs p with
  | some t => .ok t
  | none =>
    if c = '=' then fail .loneEquals p
    else if c = '"' ∨ c = '\'' then
      (stringChars c cs (p + 1) []).map fun (s, place) => (.string s, place)
    else if isWordStart c then
      let w := (c :: cs).takeWhile isWordChar
      .ok (word (String.ofList w), ⟨(c :: cs).dropWhile isWordChar, p + w.length⟩)
    else if c.isDigit then number (c :: cs) p
    else fail (.unexpectedCharacter c) p

/-- The tokens up to the end of the text or to a fault. -/
def tokens : Nat → List Char → Nat → List Located × Option SyntaxError
  | 0, _, p => ([⟨.eof, p⟩], none)
  | fuel + 1, cs, p =>
    match skipBlanks cs p with
    | ⟨[], p⟩ => ([⟨.eof, p⟩], none)
    | ⟨c :: cs, p⟩ =>
      match tokenAt c cs p with
      | .error e => ([], some e)
      | .ok (t, place) =>
        let (ts, e) := tokens fuel place.rest place.position
        (⟨t, p⟩ :: ts, e)

end Lexer

/-- The tokens of a text, as far as they can be told apart; every token takes a character. -/
def scan (text : String) : List Located × Option SyntaxError :=
  Lexer.tokens (text.length + 1) text.toList 0

/-- The tokens of a text, the last of which is its end. -/
def tokenize (text : String) : Except SyntaxError (List Located) :=
  match scan text with
  | (_, some e) => .error e
  | (ts, none) => .ok ts

end Quarry.Expr
