import Quarry.Batch
import Quarry.Patch.Patcher
import Quarry.Select.Selector
import Quarry.Sql

/-!
The commands as functions from their options to their answers.
-/

namespace Quarry.Command

/-- Why a command has no answer. -/
inductive Error where
  | compile (e : CompileError)
  | run (e : RunError)
  | read (e : Json.ReadError)
  | path (e : Path.Error)
  | patch (e : Patch.Error)
  /-- The text of a value that was found is no JSON. -/
  | json (e : Json.DecodeError)
  | noInput
deriving Repr, DecidableEq

def Error.message : Error → String
  | .compile e => "Compile error: " ++ e.message
  | .run e => "Evaluation error: " ++ e.message
  | .read e => "Invalid JSON: " ++ e.message
  | .path e => e.message
  | .patch e => "Patch error: " ++ e.message
  | .json e => "JSON error: " ++ e.message
  | .noInput => "No input provided. Use --input or pipe JSON to stdin."

/-- The errors that caused an error, the nearest first. -/
def Error.causes : Error → List String
  | .compile (.scope (.invalidPath e)) => [e.message, e.message, e.message]
  | .compile e => [e.message, e.message]
  | .run (.read e) => [e.message, e.message]
  | .run (.eval message) => [message]
  | .read e => [e.message]
  | .path e => [e.message]
  | .patch (.read e) => [e.message, e.message]
  | .patch (.decode e) => [e.message, e.message]
  | .patch e => [e.message]
  | .json e => [e.message]
  | .noInput => []

/-- The input of a command that needs one. -/
def given (input : Option String) : Except Error String :=
  match input with
  | some text => .ok text
  | none => .error .noInput

/-! ### Expressions -/

/-- An expression, written as such or as JSON, and the input it is asked about. -/
structure Query where
  expr : String
  isWire : Bool := false
  input : Option String := none
  config : Config := {}

namespace Query

def compileFilter (q : Query) : Except Error Filter :=
  (if q.isWire then Filter.ofWire q.expr q.config else Filter.parse q.expr q.config).mapError
    .compile

def compile (q : Query) : Except Error Lambda :=
  (if q.isWire then Lambda.ofWire q.expr q.config else Lambda.parse q.expr q.config).mapError
    .compile

/-- Whether the one document of the input passes. -/
def filter (q : Query) : Except Error Bool := do
  let f ← q.compileFilter
  let text ← given q.input
  (f.filter (Text.bytes text)).1.mapError .run

/-- The documents that pass, where every line of the input is one. -/
def filterLines (workers : Nat) (q : Query) : Except Error Batch := do
  let f ← q.compileFilter
  let text ← given q.input
  return Batch.filter f q.config.poolCapacity workers text

/-- The value of the expression for the document of the input. -/
def eval (q : Query) : Except Error Json.Value := do
  let l ← q.compile
  let text ← given q.input
  (l.eval (Text.bytes text)).1.mapError .run

/-- The column of documents in conditions that are shown. -/
def column : String := "data"

def shownClause (l : Lambda) : String :=
  match Sql.clause ⟨column, l.arg⟩ l.body with
  | .ok clause => clause
  | .error e => "-- " ++ e.message

/-- The expression as it is run, in all its forms. -/
def explain (q : Query) : Except Error Json.Value := do
  let l ← q.compile
  return .object
    [("arg", .string l.arg), ("expression", .string l.body.text), ("sql", .string (shownClause l)),
      ("wire", l.body.toJson.canonical)]

end Query

/-! ### Paths and patches -/

/-- Paths, and the input they lead through. -/
structure Selection where
  paths : List String
  input : Option String := none
  config : Config := {}

/-- The values that a path met. -/
def valuesOf (m : Matches) : Except Error (List Json.Value) :=
  (m.json.mapM Json.Value.read).mapError .json

def member (path : String) (m : Matches) : Except Error (String × Json.Value) := do
  return (path, .array (← valuesOf m))

/-- Under each path the values it met. -/
def Selection.select (s : Selection) : Except Error Json.Value := do
  let selector ← (Selector.make s.paths s.config).mapError .path
  let text ← given s.input
  match selector.select (Text.bytes text) with
  | (.error e, _) => .error (.read e)
  | (.ok _, selector) =>
    let members ← (s.paths.zip selector.results).mapM fun (path, m) => member path m
    return .object (Json.sortMembers members)

/-- A patch as JSON, and the input it changes. -/
structure Patching where
  patch : String
  input : Option String := none
  config : Config := {}

def Patching.apply (p : Patching) : Except Error String := do
  let text ← given p.input
  match ((Patch.Patcher.make p.config).applyText (Text.bytes text) p.patch).1 with
  | .ok output => return Text.ofBytes output
  | .error e => .error (.patch e)

end Quarry.Command
