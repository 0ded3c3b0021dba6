import Quarry.Json.Printer
import Quarry.Json.Scan
import Quarry.Json.Tagged

namespace Quarry.Patch

/-- One edit of a patch. -/
inductive Operation where
  | replace (path : String) (value : Json.Value)
  | add (path : String) (value : Json.Value)
  | remove (path : String)
  | copy (source path : String)
  | move (source path : String)
  | test (path : String) (value : Json.Value)
deriving Repr

namespace Operation

def path : Operation → String
  | .replace path _ => path
  | .add path _ => path
  | .remove path => path
  | .copy _ path => path
  | .move _ path => path
  | .test path _ => path

def kinds : List String := ["replace", "add", "remove", "copy", "move", "test"]

/-! ### Writing -/

def tagged (kind : String) (fields : List (String × Json.Value)) : Json.Value :=
  .object ((Json.tagName, .string kind) :: fields)

def toJson : Operation → Json.Value
  | .replace path value => tagged "replace" [("path", .string path), ("value", value)]
  | .add path value => tagged "add" [("path", .string path), ("value", value)]
  | .remove path => tagged "remove" [("path", .string path)]
  | .copy source path => tagged "copy" [("from", .string source), ("path", .string path)]
  | .move source path => tagged "move" [("from", .string source), ("path", .string path)]
  | .test path value => tagged "test" [("path", .string path), ("value", value)]

/-! ### Reading -/

def withValue? (make : String → Json.Value → Operation) (body : Json.Body Json.Value) :
    Option Operation := do
  match ← body.take? ["path", "value"] with
  | [.string path, value] => return make path value.canonical
  | _ => none

def withSource? (make : String → String → Operation) (body : Json.Body Json.Value) :
    Option Operation := do
  match ← body.take? ["from", "path"] with
  | [.string source, .string path] => return make source path
  | _ => none

def build? (t : Json.Tagged Json.Value) : Option Operation :=
  if t.kind = "replace" then withValue? .replace t.body
  else if t.kind = "add" then withValue? .add t.body
  else if t.kind = "test" then withValue? .test t.body
  else if t.kind = "copy" then withSource? .copy t.body
  else if t.kind = "move" then withSource? .move t.body
  else if t.kind = "remove" then do
    match ← t.body.take? ["path"] with
    | [.string path] => return .remove path
    | _ => none
  else none

open Json Json.Parser

/-- Reads one operation; its shape is checked where it ends. -/
def read (r : Rules) (cs : List Char) : Except DecodeError (Operation × List Char) := do
  let (t, cs) ← Tagged.read kinds r cs
  shaped (build? t) cs

/-- The operations of an array up to its end. -/
def readItems (r : Rules) : Nat → Bool → List Char →
    Except DecodeError (List Operation × List Char)
  | 0, _, _ => .error .ended
  | fuel + 1, started, cs =>
    match skipSpace cs with
    | [] => .error .ended
    | c :: cs =>
      if c = ']' then .ok ([], cs)
      else if started && c != ',' then .error .malformed
      else do
        let (op, cs) ← read r (if started then cs else c :: cs)
        let (ops, cs) ← readItems r fuel true cs
        return (op :: ops, cs)

def readAll (cs : List Char) : Except DecodeError (List Operation × List Char) :=
  match skipSpace cs with
  | '[' :: cs => readItems strict.inside (fuelFor cs) false cs
  | cs => do
    let _ ← leaf strict cs
    .error .misshapen

end Operation

/-- Reads a patch, an array of operations. -/
def parse (text : String) : Except Json.DecodeError (List Operation) :=
  Json.Parser.complete (Operation.readAll text.toList)

def toJson (ops : List Operation) : Json.Value := .array (ops.map Operation.toJson)

inductive Error where
  /-- The text to be patched is malformed. -/
  | read (e : Json.ReadError)
  | decode (e : Json.DecodeError)
  | invalidPath (path : String)
  /-- One pass over the text cannot do this. -/
  | unsupported (path op : String)
  | testFailed (path : String)
  | notFound (path : String)
deriving Repr, DecidableEq

def Error.message : Error → String
  | .read e => e.message
  | .decode e => e.message
  | .invalidPath path => s!"invalid JSON pointer '{path}'"
  | .unsupported path op => s!"'{op}' at '{path}' is not supported"
  | .testFailed path => s!"test failed at '{path}'"
  | .notFound path => s!"path '{path}' not found"

end Quarry.Patch
