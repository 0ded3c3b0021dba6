import Quarry.Json.Parser

/-!
A record has fields of known names and shapes, all of which may be missing. It is an object, where
other names are passed over, or an array of the fields in their order.
-/

namespace Quarry.Json

inductive Shape where
  | text
  /-- A natural number of 64 bits. -/
  | size
deriving Repr, DecidableEq

def Shape.fits : Shape → Value → Bool
  | .text, .string _ => true
  | .size, .number (.int n) => 0 ≤ n
  | _, _ => false

abbrev Fields := List (String × Shape)

namespace Record

open Quarry.Json.Parser

def readField (shape : Shape) (cs : List Char) : Except DecodeError (Value × List Char) := do
  let (v, cs) ← leaf strict cs
  if shape.fits v then return (v, cs) else .error .misshapen

/-- The members of an object up to its end, where `seen` are the fields before. -/
def readMembers (fields : Fields) :
    Nat → List (String × Value) → Bool → List Char →
      Except DecodeError (List (String × Value) × List Char)
  | 0, _, _, _ => .error .ended
  | fuel + 1, seen, started, cs =>
    match skipSpace cs with
    | [] => .error .ended
    | c :: cs =>
      if c = '\x7d' then .ok (seen, cs)
      else if started && c != ',' then .error .malformed
      else do
        let (k, cs) ← key strict (if started then cs else c :: cs)
        match find? k fields with
        | none => do
          let (_, cs) ← skipValue (← mark ':' cs)
          readMembers fields fuel seen true cs
        | some shape =>
          if (find? k seen).isSome then .error .misshapen
          else do
            let (v, cs) ← readField shape (← mark ':' cs)
            readMembers fields fuel ((k, v) :: seen) true cs

/-- The elements of an array up to its end, as far as there are fields for them. -/
def readItems : Fields → Bool → List Char → Except DecodeError (List (String × Value) × List Char)
  | [], _, cs => do
    let cs ← mark ']' cs
    return ([], cs)
  | (k, shape) :: fields, started, cs =>
    match skipSpace cs with
    | [] => .error .ended
    | c :: cs =>
      if c = ']' then .ok ([], cs)
      else if started && c != ',' then .error .malformed
      else do
        let rest := if started then cs else c :: cs
        if (skipSpace rest).head? = some ']' then .error .malformed
        else do
          let (v, cs) ← readField shape rest
          let (vs, cs) ← readItems fields true cs
          return ((k, v) :: vs, cs)

def read (fields : Fields) (cs : List Char) :
    Except DecodeError (List (String × Value) × List Char) :=
  match skipSpace cs with
  | [] => .error .ended
  | c :: cs =>
    if c = '[' then readItems fields false cs
    else if c = '\x7b' then readMembers fields (fuelFor cs) [] false cs
    else do
      let _ ← scalar strict c cs
      .error .misshapen

end Record

end Quarry.Json
