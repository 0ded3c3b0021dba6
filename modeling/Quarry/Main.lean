import Quarry.Arguments

namespace Quarry.Main

partial def readAll (stream : IO.FS.Stream) (read : ByteArray) : IO ByteArray := do
  let bytes ← stream.read 65536
  if bytes.isEmpty then return read
  readAll stream (read ++ bytes)

/-- The input that was given, or what comes in, unless that is a terminal. -/
def readInput (a : Arguments) : IO (Option String) := do
  match a.value? .input with
  | some text => return some text
  | none =>
    let stream ← IO.getStdin
    if ← stream.isTty then return none
    match String.fromUTF8? (← readAll stream .empty) with
    | some text => return some text
    | none => throw (IO.userError "stream did not contain valid UTF-8")

def readConfig (a : Arguments) : IO Config := do
  match a.value? .config with
  | none => return {}
  | some file =>
    match Config.ofJson (← IO.FS.readFile file) with
    | .ok config => return config
    | .error e => throw (IO.userError ("invalid config: " ++ e.message))

def perform (verb : Verb) (a : Arguments) : IO UInt32 := do
  let config ← readConfig a
  let input ← if verb = .explain then pure none else readInput a
  match a.run 4 verb input config with
  | .ok output =>
    output.lines.forM IO.println
    if 0 < output.skipped then
      IO.eprintln (toString output.skipped ++ " document(s) skipped")
    return 0
  | .error e =>
    IO.eprintln e.message
    return 1

end Quarry.Main

open Quarry Quarry.Main in
def main (args : List String) : IO UInt32 := do
  match Arguments.ofList args with
  | .error e =>
    IO.eprintln e.message
    return 2
  | .ok (verb, a) =>
    try perform verb a
    catch e =>
      IO.eprintln (toString e)
      return 1
