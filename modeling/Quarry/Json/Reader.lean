import Quarry.Json.Scan

namespace Quarry.Json

open Text

def defaultMaxDepth : Nat := 512

/-- A token of a text; the name of a member belongs to its value. -/
inductive Event where
  | objectStart
  | objectEnd
  | arrayStart
  | arrayEnd
  | string (value : String)
  | number (text : String) (isInteger : Bool)
  | bool (value : Bool)
  | null
  | eof
  | error
deriving Repr, DecidableEq

namespace Event

def isStart : Event → Bool
  | .objectStart => true
  | .arrayStart => true
  | _ => false

def isEnd : Event → Bool
  | .objectEnd => true
  | .arrayEnd => true
  | _ => false

/-- No further token follows. -/
def isLast : Event → Bool
  | .eof => true
  | .error => true
  | _ => false

end Event

/-- An open container, and whether it has a member or element yet. -/
structure Frame where
  isObject : Bool
  started : Bool
deriving Repr, DecidableEq

namespace Frame

def close (f : Frame) : Char := if f.isObject then '\x7d' else ']'

def endEvent (f : Frame) : Event := if f.isObject then .objectEnd else .arrayEnd

end Frame

/-- A part of a text, from one offset to before another. -/
structure Span where
  start : Nat
  stop : Nat
deriving Repr, DecidableEq

def Span.of (s : Span) (input : Bytes) : Bytes := (input.drop s.start).take (s.stop - s.start)

/-- A reader stands on the token it read last. -/
structure Reader where
  input : Bytes
  cursor : Cursor
  stack : List Frame
  maxDepth : Nat
  rootDone : Bool
  event : Event
  key : Option String
  valueStart : Nat
  failure : Option ReadError
  eventsRead : Nat
  skipped : Nat
deriving Repr

namespace Reader

def ofBytes (maxDepth : Nat) (input : Bytes) : Reader where
  input := input
  cursor := Cursor.start input
  stack := []
  maxDepth := maxDepth
  rootDone := false
  event := .eof
  key := none
  valueStart := 0
  failure := none
  eventsRead := 0
  skipped := 0

def position (r : Reader) : Nat := r.cursor.position

/-- From the start of the value read last to where the reader stands. -/
def span (r : Reader) : Span := ⟨r.valueStart, r.position⟩

/-- The fault of an error event. -/
def fault (r : Reader) : ReadError := r.failure.getD ⟨.endOfInput, r.position⟩

def fail (f : Fault) (r : Reader) : Reader :=
  { r with failure := some ⟨f, r.position⟩, event := .error }

def emit (e : Event) (r : Reader) : Reader := { r with event := e }

/-- A value outside every container completes the text. -/
def finish (e : Event) (r : Reader) : Reader :=
  { r with event := e, rootDone := r.rootDone || r.stack.isEmpty }

/-- Continues with the value of a scan, or fails where it stopped. -/
def scanned (r : Reader) (s : Scan Event) : Reader :=
  match s with
  | (.ok e, stop) => { r with cursor := stop }.finish e
  | (.error f, stop) => { r with cursor := stop }.fail f

def literal (word : String) (e : Event) (r : Reader) : Reader :=
  if (bytes word).isPrefixOf r.cursor.rest then
    { r with cursor := r.cursor.drop (bytes word).length }.finish e
  else r.fail .invalidLiteral

def openContainer (isObject : Bool) (r : Reader) : Reader :=
  if r.maxDepth ≤ r.stack.length then r.fail (.tooDeep r.maxDepth)
  else
    { r with cursor := r.cursor.next, stack := ⟨isObject, false⟩ :: r.stack }.emit
      (if isObject then .objectStart else .arrayStart)

/-- Reads the first token of a value. -/
def readValue (r : Reader) : Reader :=
  let r := { r with valueStart := r.position }
  match r.cursor.rest with
  | [] => r.fail .endOfInput
  | b :: _ =>
    if b = byte '\x7b' then r.openContainer true
    else if b = byte '[' then r.openContainer false
    else if b = byte '"' then
      match scanString r.cursor with
      | (s, stop) => r.scanned (s.map Event.string, stop)
    else if b = byte '-' || isDigitByte b then
      match scanNumber r.cursor with
      | (n, stop) => r.scanned (n.map fun n => Event.number n.1 n.2, stop)
    else if b = byte 't' then r.literal "true" (.bool true)
    else if b = byte 'f' then r.literal "false" (.bool false)
    else if b = byte 'n' then r.literal "null" .null
    else r.fail (.unexpectedByte b)

/-- Reads the name of a member and its colon. -/
def readName (r : Reader) : Reader :=
  if r.cursor.startsWith (byte '"') then
    match scanString r.cursor with
    | (.error f, stop) => { r with cursor := stop }.fail f
    | (.ok name, stop) =>
      let r := { r with cursor := stop.skipSpace }
      if r.cursor.startsWith (byte ':') then
        { r with cursor := r.cursor.next.skipSpace, key := some name }
      else r.fail .missingColon
  else r.fail .missingName

/-- Reads the comma before every member or element but the first. -/
def readComma (f : Frame) (r : Reader) : Reader :=
  if f.started then
    if r.cursor.startsWith (byte ',') then { r with cursor := r.cursor.next.skipSpace }
    else r.fail (.missingComma f.close)
  else r

/-- Goes on unless a fault was met. -/
def andThen (r : Reader) (k : Reader → Reader) : Reader :=
  match r.failure with
  | some _ => r
  | none => k r

/-- Reads the next member or element of the innermost container, or its end. -/
def readInside (f : Frame) (outer : List Frame) (r : Reader) : Reader :=
  if r.cursor.rest.isEmpty then r.fail .endOfInput
  else if r.cursor.startsWith (byte f.close) then
    { r with cursor := r.cursor.next, stack := outer }.finish f.endEvent
  else
    (r.readComma f).andThen fun r =>
      let r := { r with stack := ⟨f.isObject, true⟩ :: outer }
      if f.isObject then r.readName.andThen readValue else r.readValue

/-- Reads the token outside all containers. -/
def readOutside (r : Reader) : Reader :=
  if r.cursor.rest.isEmpty then { r with rootDone := true }.emit .eof
  else if r.rootDone then r.fail .trailingCharacters
  else r.readValue

/-- Reads one token. After a fault nothing changes any more. -/
def next (r : Reader) : Reader :=
  r.andThen fun r =>
    let r := { r with key := none, eventsRead := r.eventsRead + 1, cursor := r.cursor.skipSpace }
    match r.stack with
    | [] => r.readOutside
    | f :: outer => r.readInside f outer

/-- Reads on until fewer than `depth` containers are open. -/
def readUntil (depth : Nat) : Nat → Reader → Reader
  | 0, r => r.fail .endOfInput
  | fuel + 1, r =>
    let r := r.next
    if r.event = .error then r
    else if r.event.isEnd && decide (r.stack.length < depth) then r
    else if r.event = .eof then r.fail .endOfInput
    else readUntil depth fuel r

/-- Passes over the value the reader stands on. -/
def skip (r : Reader) : Except ReadError Span × Reader :=
  let r' := if r.event.isStart then r.readUntil r.stack.length (r.cursor.rest.length + 1) else r
  match r'.failure with
  | some e => (.error e, r')
  | none => (.ok ⟨r.valueStart, r'.position⟩, { r' with skipped := r'.skipped + 1 })

end Reader

end Quarry.Json
