import Quarry.Text.Split

namespace Quarry.Pointer

/-- Undoes the escapes of a token: a tilde is always followed by a zero or a one. -/
def unescape? : List Char → Option (List Char)
  | [] => some []
  | '~' :: '0' :: cs => (unescape? cs).map ('~' :: ·)
  | '~' :: '1' :: cs => (unescape? cs).map ('/' :: ·)
  | c :: cs => if c = '~' then none else (unescape? cs).map (c :: ·)

def escape : List Char → List Char
  | [] => []
  | '~' :: cs => '~' :: '0' :: escape cs
  | '/' :: cs => '~' :: '1' :: escape cs
  | c :: cs => c :: escape cs

/-- The tokens of a pointer: none, or one after each slash. -/
def parse? (text : String) : Option (List String) :=
  match text.toList with
  | [] => some []
  | '/' :: cs => (Text.split '/' cs).mapM fun t => (unescape? t).map String.ofList
  | _ => none

def format (tokens : List String) : String :=
  String.ofList (tokens.flatMap fun t => '/' :: escape t.toList)

end Quarry.Pointer
