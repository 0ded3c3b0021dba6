import Quarry.Patch.Operation
import Quarry.Text.Bytes

namespace Quarry.Patch

inductive EditKind where
  | replace
  | add
  | remove
deriving Repr, DecidableEq

def EditKind.name : EditKind → String
  | .replace => "replace"
  | .add => "add"
  | .remove => "remove"

/-- What is done at a place: the kind of the edit, the pointer it came with and the new text. -/
structure Edit where
  kind : EditKind
  path : String
  payload : Text.Bytes
deriving Repr, DecidableEq

/-- A place that edits lead through. Only where an edit ends there is one. -/
inductive Node where
  | make (id : Nat) (edit : Option Edit) (children : List (String × Node))

namespace Node

def leaf (id : Nat) : Node := .make id none []

def id : Node → Nat
  | .make id _ _ => id

def edit : Node → Option Edit
  | .make _ edit _ => edit

def children : Node → List (String × Node)
  | .make _ _ children => children

/-- Puts a child in the place of the one with the same token, or after all others. -/
def putChild (t : String) (c : Node) : List (String × Node) → List (String × Node)
  | [] => [(t, c)]
  | (u, d) :: cs => if u = t then (t, c) :: cs else (u, d) :: putChild t c cs

/-- The child with a token, and the others. -/
def takeChild (t : String) : List (String × Node) → Option (Node × List (String × Node))
  | [] => none
  | (u, d) :: cs =>
    if u = t then some (d, cs) else (takeChild t cs).map fun (c, cs) => (c, (u, d) :: cs)

/-- Puts an edit where the tokens lead; it may not lie within another, nor around one. New nodes are
numbered from `next` on; the answer holds the next free number and the number of the last node. -/
def insert (e : Edit) : List String → Nat → Node → Option (Node × Nat × Nat)
  | [], next, .make id _ children =>
    if children.isEmpty then some (.make id (some e) [], next, id) else none
  | t :: ts, next, .make id edit children =>
    if edit.isSome then none
    else
      match takeChild t children with
      | some (c, _) =>
        (insert e ts next c).map fun (c, next, stop) =>
          (.make id none (putChild t c children), next, stop)
      | none =>
        (insert e ts (next + 1) (leaf next)).map fun (c, next, stop) =>
          (.make id none (putChild t c children), next, stop)

/-- The pointer of the first edit at a node or below it. -/
def firstTarget : Node → String
  | .make _ (some e) _ => e.path
  | .make _ none [] => ""
  | .make _ none ((_, c) :: _) => c.firstTarget

mutual

def withId? (k : Nat) : Node → Option Node
  | .make id edit children =>
    if id = k then some (.make id edit children) else childWithId? k children

def childWithId? (k : Nat) : List (String × Node) → Option Node
  | [] => none
  | (_, c) :: cs => (c.withId? k).or (childWithId? k cs)

end

end Node

/-- Edits of different places, merged by the common beginnings of their pointers. -/
structure Tree where
  root : Node
  size : Nat

namespace Tree

def empty : Tree := ⟨.leaf 0, 1⟩

def isEmpty (t : Tree) : Bool := t.root.children.isEmpty

def node? (id : Nat) (t : Tree) : Option Node := t.root.withId? id

/-- Adds an edit; a later one at the same place takes the place of an earlier one. -/
def insert (tokens : List String) (e : Edit) (t : Tree) : Except Error (Nat × Tree) :=
  match t.root.insert e tokens t.size with
  | some (root, size, stop) => .ok (stop, ⟨root, size⟩)
  | none => .error (.unsupported e.path e.kind.name)

end Tree

end Quarry.Patch
