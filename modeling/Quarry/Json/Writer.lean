import Quarry.Text.Bytes
import Quarry.Text.Printable

namespace Quarry.Json

open Text

def hex4 (n : Nat) : List Char :=
  let ds := Nat.toDigits 16 n
  List.replicate (4 - ds.length) '0' ++ ds

def escapeChar (c : Char) : List Char :=
  if c = '"' then ['\\', '"']
  else if c = '\\' then ['\\', '\\']
  else if c = '\n' then ['\\', 'n']
  else if c = '\r' then ['\\', 'r']
  else if c = '\t' then ['\\', 't']
  else if isControl c then '\\' :: 'u' :: hex4 c.toNat
  else [c]

/-- The bytes of a string literal. -/
def stringBytes (s : String) : Bytes :=
  bytes (String.ofList ('"' :: s.toList.flatMap escapeChar ++ ['"']))

/-- The output so far, and for each open container whether it has a member or element yet. -/
structure Writer where
  output : Bytes
  started : List Bool
deriving Repr, DecidableEq

namespace Writer

def empty : Writer := ⟨[], []⟩

def put (bs : Bytes) (w : Writer) : Writer := { w with output := w.output ++ bs }

/-- The comma and the name that come before a value. -/
def lead (key : Option String) (w : Writer) : Writer :=
  let comma := if w.started.head? = some true then [byte ','] else []
  let name := match key with
    | some k => stringBytes k ++ [byte ':']
    | none => []
  { output := w.output ++ (comma ++ name), started := w.started.modifyHead fun _ => true }

def start (bracket : Char) (key : Option String) (w : Writer) : Writer :=
  let w := (w.lead key).put [byte bracket]
  { w with started := false :: w.started }

def finish (bracket : Char) (w : Writer) : Writer :=
  { w with started := w.started.tail }.put [byte bracket]

def objectStart (key : Option String) (w : Writer) : Writer := w.start '\x7b' key

def objectEnd (w : Writer) : Writer := w.finish '\x7d'

def arrayStart (key : Option String) (w : Writer) : Writer := w.start '[' key

def arrayEnd (w : Writer) : Writer := w.finish ']'

def string (key : Option String) (value : String) (w : Writer) : Writer :=
  (w.lead key).put (stringBytes value)

/-- Writes a value that is JSON text already. -/
def raw (key : Option String) (value : Bytes) (w : Writer) : Writer := (w.lead key).put value

end Writer

end Quarry.Json
