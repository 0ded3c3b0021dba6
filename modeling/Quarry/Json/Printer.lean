import Quarry.Json.Value

namespace Quarry.Json

/-- Numbers in JSON text are plain from `0.00001` to below `10 ^ 16`. -/
def numberLayout : Numeral.Layout := ⟨-5, 16, true, .even⟩

def Number.text : Number → String
  | .int n => toString n
  | .float x => if x.isFinite then numberLayout.finite x else "null"

namespace Printer

def hex2 (n : Nat) : List Char := [Nat.digitChar (n / 16), Nat.digitChar (n % 16)]

def escape (c : Char) : List Char :=
  if c = '"' then ['\\', '"']
  else if c = '\\' then ['\\', '\\']
  else if c = '\x08' then ['\\', 'b']
  else if c = '\x0c' then ['\\', 'f']
  else if c = '\n' then ['\\', 'n']
  else if c = '\r' then ['\\', 'r']
  else if c = '\t' then ['\\', 't']
  else if c.toNat < 0x20 then ['\\', 'u', '0', '0'] ++ hex2 c.toNat
  else [c]

def string (s : String) : List Char := '"' :: s.toList.flatMap escape ++ ['"']

mutual

def value : Value → List Char
  | .null => ['n', 'u', 'l', 'l']
  | .bool true => ['t', 'r', 'u', 'e']
  | .bool false => ['f', 'a', 'l', 's', 'e']
  | .number n => n.text.toList
  | .string s => string s
  | .array [] => ['[', ']']
  | .array (v :: vs) => '[' :: value v ++ items vs
  | .object [] => ['\x7b', '\x7d']
  | .object ((k, v) :: ms) => '\x7b' :: string k ++ ':' :: value v ++ members ms

/-- The further elements of an array and its end. -/
def items : List Value → List Char
  | [] => [']']
  | v :: vs => ',' :: value v ++ items vs

/-- The further members of an object and its end. -/
def members : List (String × Value) → List Char
  | [] => ['\x7d']
  | (k, v) :: ms => ',' :: string k ++ ':' :: value v ++ members ms

end

end Printer

/-- The compact text of a value, members in their order. -/
def Value.text (v : Value) : String := String.ofList (Printer.value v)

end Quarry.Json
