import Quarry.Json.Record

namespace Quarry

structure Config where
  /-- The argument of expressions that do not name one. -/
  rootArg : String := "o"
  /-- How deep containers may nest in documents. -/
  maxDepth : Nat := 512
  /-- How many idle instances a pool keeps. -/
  poolCapacity : Nat := 16
  logLevel : String := "warn"
deriving Repr, DecidableEq

namespace Config

def fields : Json.Fields :=
  [("root_arg", .text), ("max_depth", .size), ("pool_capacity", .size), ("log_level", .text)]

def textField (k default : String) (ms : List (String × Json.Value)) : String :=
  match Json.find? k ms with
  | some (.string s) => s
  | _ => default

def sizeField (k : String) (default : Nat) (ms : List (String × Json.Value)) : Nat :=
  match Json.find? k ms with
  | some (.number (.int n)) => n.toNat
  | _ => default

def ofFields (ms : List (String × Json.Value)) : Config :=
  let d : Config := {}
  { rootArg := textField "root_arg" d.rootArg ms
    maxDepth := sizeField "max_depth" d.maxDepth ms
    poolCapacity := sizeField "pool_capacity" d.poolCapacity ms
    logLevel := textField "log_level" d.logLevel ms }

/-- Reads a configuration; what it leaves out has its default. -/
def ofJson (text : String) : Except Json.DecodeError Config :=
  (Json.Parser.complete (Json.Record.read fields text.toList)).map ofFields

end Config

end Quarry
