import Quarry.Numeral.Reading
import Quarry.Text.Blank

namespace Quarry

/-- One step from a value to values inside it. -/
inductive Segment where
  | key (name : String)
  | index (i : Nat)
  /-- Every element of an array. -/
  | wildcard
deriving Repr, DecidableEq

/-- The steps of a path, the outermost first. -/
abbrev Path := List Segment

namespace Path

inductive Fault where
  | empty
  | leadingPoint
  | emptyName
  | missingBracket
  | unknownBracket
  | expectedStep
deriving Repr, DecidableEq

def Fault.message : Fault → String
  | .empty => "empty path"
  | .leadingPoint => "path starts with '.'"
  | .emptyName => "empty member name"
  | .missingBracket => "missing ']'"
  | .unknownBracket => "expected index, '*' or quoted name in brackets"
  | .expectedStep => "expected '.' or '['"

structure Error where
  path : String
  fault : Fault
deriving Repr, DecidableEq

def Error.message (e : Error) : String := s!"invalid path '{e.path}': {e.fault.message}"

/-! ### Reading -/

/-- What stands between two quotes. -/
def unquote? (quote : Char) : List Char → Option (List Char)
  | [] => none
  | c :: cs => if c = quote ∧ cs.getLast? = some quote then some cs.dropLast else none

/-- The step that a pair of brackets holds. -/
def bracketed (inner : List Char) : Except Fault Segment :=
  let inner := Text.trim inner
  if inner = ['*'] then .ok .wildcard
  else
    match (unquote? '\'' inner).or (unquote? '"' inner) with
    | some name => .ok (.key (String.ofList name))
    | none =>
      match Numeral.index? (String.ofList inner) with
      | some i => .ok (.index i)
      | none => .error .unknownBracket

/-- A name that ends, followed by further steps. -/
def named (read : List Char) (steps : Except Fault Path) : Except Fault Path :=
  if read.isEmpty then .error .emptyName
  else steps.map (.key (String.ofList read.reverse) :: ·)

mutual

/-- The steps after the first name; each begins with a point or a bracket. -/
def steps : List Char → Except Fault Path
  | [] => .ok []
  | c :: cs =>
    if c = '.' then name [] cs
    else if c = '[' then brackets [] cs
    else .error .expectedStep

/-- A name, of which `read` holds the beginning in reverse, and the steps after it. -/
def name (read : List Char) : List Char → Except Fault Path
  | [] => named read (.ok [])
  | c :: cs =>
    if c = '.' then named read (name [] cs)
    else if c = '[' then named read (brackets [] cs)
    else name (c :: read) cs

/-- The inside of brackets, of which `read` holds the beginning in reverse, and the steps after it. -/
def brackets (read : List Char) : List Char → Except Fault Path
  | [] => .error .missingBracket
  | c :: cs =>
    if c = ']' then do
      let s ← bracketed read.reverse
      return s :: (← steps cs)
    else brackets (c :: read) cs

end

def parseChars : List Char → Except Fault Path
  | [] => .error .empty
  | c :: cs =>
    if c = '.' then .error .leadingPoint
    else if c = '[' then brackets [] cs
    else name [c] cs

def parse (text : String) : Except Error Path :=
  match parseChars text.toList with
  | .ok p => .ok p
  | .error f => .error ⟨text, f⟩

/-! ### Writing -/

def needsQuotes (name : String) : Bool := name.toList.any fun c => c == '.' || c == '[' || c == ']'

/-- Adds a step to the text of a path. -/
def append (text : String) : Segment → String
  | .key name =>
    if needsQuotes name then text ++ "['" ++ name ++ "']"
    else if text.isEmpty then name
    else text ++ "." ++ name
  | .index i => s!"{text}[{i}]"
  | .wildcard => text ++ "[*]"

def format (p : Path) : String := p.foldl append ""

def hasWildcard (p : Path) : Bool := p.contains .wildcard

end Path

end Quarry
