import Quarry.Document.Json
import Quarry.Patch.Tree
import Quarry.Pointer

/-!
Operations reduced to edits of places. What `copy`, `move` and `test` read is the document as the
edits before them leave it, which is told from these edits without making them.
-/

namespace Quarry.Patch

/-- An edit and the place it is made at. -/
structure Target where
  tokens : List String
  edit : Edit
deriving Repr, DecidableEq

def Target.make (kind : EditKind) (path : String) (payload : Text.Bytes) : Except Error Target :=
  match Pointer.parse? path with
  | some tokens => .ok ⟨tokens, kind, path, payload⟩
  | none => .error (.invalidPath path)

/-- What follows a common beginning. -/
def after? : List String → List String → Option (List String)
  | [], ts => some ts
  | _ :: _, [] => none
  | u :: us, t :: ts => if u = t then after? us ts else none

def Target.overlaps (tokens : List String) (t : Target) : Bool :=
  t.tokens.isPrefixOf tokens || tokens.isPrefixOf t.tokens

/-- A value after the edits so far. -/
inductive Current where
  | missing
  | raw (text : Text.Bytes)
  /-- Something below it is edited. -/
  | modified
deriving Repr, DecidableEq

/-- The text at a place of a document. -/
def textAt (input : Text.Bytes) (d : Document) (tokens : List String) : Current :=
  match d.pointer? tokens with
  | some n => .raw (n.span.of input)
  | none => .missing

/-- The text at a place of a new value. -/
def textIn (maxDepth : Nat) (payload : Text.Bytes) (tokens : List String) : Except Error Current :=
  if tokens.isEmpty then .ok (.raw payload)
  else
    match Document.read maxDepth payload with
    | .ok d => .ok (textAt payload d tokens)
    | .error e => .error (.read e)

/-- A value that the latest edits decide, if they do. -/
def decided (maxDepth : Nat) (tokens : List String) : List Target → Option (Except Error Current)
  | [] => none
  | t :: ts =>
    match after? t.tokens tokens with
    | some rest =>
      if t.edit.kind = .remove then some (.ok .missing)
      else some (textIn maxDepth t.edit.payload rest)
    | none =>
      if tokens.isPrefixOf t.tokens then some (.ok .modified) else decided maxDepth tokens ts

/-- The edits so far, the latest first, and the document once it has been read. -/
structure Resolving where
  document : Option Document
  targets : List Target

namespace Resolving

abbrev Step (α : Type) := Resolving → Except Error α × Resolving

def current (input : Text.Bytes) (maxDepth : Nat) (tokens : List String) : Step Current := fun r =>
  match decided maxDepth tokens r.targets with
  | some c => (c, r)
  | none =>
    match r.document with
    | some d => (.ok (textAt input d tokens), r)
    | none =>
      match Document.read maxDepth input with
      | .error e => (.error (.read e), r)
      | .ok d => (.ok (textAt input d tokens), { r with document := some d })

/-- The text at a pointer, for an operation that has to find it. -/
def valueAt (input : Text.Bytes) (maxDepth : Nat) (path op : String) : Step Text.Bytes := fun r =>
  match Pointer.parse? path with
  | none => (.error (.invalidPath path), r)
  | some tokens =>
    match r.current input maxDepth tokens with
    | (.error e, r) => (.error e, r)
    | (.ok (.raw text), r) => (.ok text, r)
    | (.ok .missing, r) => (.error (.notFound path), r)
    | (.ok .modified, r) => (.error (.unsupported path op), r)

def push (t : Target) (r : Resolving) : Resolving := { r with targets := t :: r.targets }

def pushEdit (kind : EditKind) (path : String) (payload : Text.Bytes) : Step Unit := fun r =>
  match Target.make kind path payload with
  | .ok t => (.ok (), r.push t)
  | .error e => (.error e, r)

/-- Where the latest edit at just this place stands, if it put a value there and no edit around the
place or within it came later. -/
def undone? (tokens : List String) (targets : List Target) : Option Nat := do
  let i ← targets.findIdx? (Target.overlaps tokens)
  let t ← targets[i]?
  if t.tokens = tokens ∧ t.edit.kind ≠ .remove then some i else none

/-- Removing what an earlier edit put in place drops that edit. If there was nothing before it,
nothing is left to remove. -/
def remove (input : Text.Bytes) (maxDepth : Nat) (path : String) : Step Unit := fun r =>
  match Target.make .remove path [] with
  | .error e => (.error e, r)
  | .ok t =>
    match undone? t.tokens r.targets with
    | none => (.ok (), r.push t)
    | some i =>
      match { r with targets := r.targets.eraseIdx i }.current input maxDepth t.tokens with
      | (.error e, r) => (.error e, r)
      | (.ok .missing, r) => (.ok (), r)
      | (.ok _, r) => (.ok (), r.push t)

/-- Whether a text holds a value. -/
def holds (maxDepth : Nat) (text : Text.Bytes) (value : Json.Value) : Except Error Bool :=
  match Document.read maxDepth text with
  | .error e => .error (.read e)
  | .ok d => .ok (d.root.any fun n => n.equalsJson value)

def operation (input : Text.Bytes) (maxDepth : Nat) : Operation → Step Unit
  | .replace path value => pushEdit .replace path (Text.bytes value.text)
  | .add path value => pushEdit .add path (Text.bytes value.text)
  | .remove path => remove input maxDepth path
  | .test path value => fun r =>
    match r.valueAt input maxDepth path "test" with
    | (.error e, r) => (.error e, r)
    | (.ok text, r) =>
      match holds maxDepth text value with
      | .error e => (.error e, r)
      | .ok true => (.ok (), r)
      | .ok false => (.error (.testFailed path), r)
  | .copy source path => fun r =>
    match r.valueAt input maxDepth source "copy" with
    | (.error e, r) => (.error e, r)
    | (.ok text, r) => r.pushEdit .add path text
  | .move source path => fun r =>
    if (source.toList ++ ['/']).isPrefixOf path.toList then (.error (.unsupported path "move"), r)
    else
      match r.valueAt input maxDepth source "move" with
      | (.error e, r) => (.error e, r)
      | (.ok text, r) =>
        match r.remove input maxDepth source with
        | (.error e, r) => (.error e, r)
        | (.ok _, r) => r.pushEdit .add path text

def operations (input : Text.Bytes) (maxDepth : Nat) : List Operation → Step Unit
  | [], r => (.ok (), r)
  | op :: ops, r =>
    match operation input maxDepth op r with
    | (.error e, r) => (.error e, r)
    | (.ok _, r) => operations input maxDepth ops r

end Resolving

end Quarry.Patch
