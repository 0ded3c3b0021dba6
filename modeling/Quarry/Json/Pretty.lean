import Quarry.Json.Printer

namespace Quarry.Json

namespace Pretty

def newline (depth : Nat) : List Char := '\n' :: List.replicate (2 * depth) ' '

mutual

/-- A value within `depth` containers; every element and member has a line of its own. -/
def value (depth : Nat) : Value → List Char
  | .array (v :: vs) =>
    '[' :: newline (depth + 1) ++ value (depth + 1) v ++ items depth vs
  | .object ((k, v) :: ms) =>
    '\x7b' :: newline (depth + 1) ++ Printer.string k ++ [':', ' '] ++ value (depth + 1) v ++
      members depth ms
  | v => Printer.value v

/-- The further elements of an array and its end. -/
def items (depth : Nat) : List Value → List Char
  | [] => newline depth ++ [']']
  | v :: vs => ',' :: newline (depth + 1) ++ value (depth + 1) v ++ items depth vs

/-- The further members of an object and its end. -/
def members (depth : Nat) : List (String × Value) → List Char
  | [] => newline depth ++ ['\x7d']
  | (k, v) :: ms =>
    ',' :: newline (depth + 1) ++ Printer.string k ++ [':', ' '] ++ value (depth + 1) v ++
      members depth ms

end

end Pretty

/-- The text of a value on several lines. -/
def Value.pretty (v : Value) : String := String.ofList (Pretty.value 0 v)

end Quarry.Json
