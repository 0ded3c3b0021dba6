import Quarry.Json.Value
import Quarry.Path

namespace Quarry

/-- A place that paths lead through; `collectors` are attached where paths end. -/
inductive PathNode (α : Type) where
  | make (id : Nat) (visited : Nat) (collectors : List α) (children : List (Segment × PathNode α))

namespace PathNode

variable {α : Type}

def leaf (id : Nat) : PathNode α := .make id 0 [] []

def id : PathNode α → Nat
  | .make id _ _ _ => id

/-- The index at which an element was visited last, for a node behind a wildcard. -/
def visited : PathNode α → Nat
  | .make _ visited _ _ => visited

def collectors : PathNode α → List α
  | .make _ _ collectors _ => collectors

def children : PathNode α → List (Segment × PathNode α)
  | .make _ _ _ children => children

def hasChildren (n : PathNode α) : Bool := !n.children.isEmpty

def child? (s : Segment) (n : PathNode α) : Option (PathNode α) :=
  (n.children.find? fun c => c.1 == s).map Prod.snd

/-- A wildcard takes precedence over an index. -/
def childAt? (i : Nat) (n : PathNode α) : Option (PathNode α) :=
  (n.child? .wildcard).or (n.child? (.index i))

/-- Puts a child in the place of the one at the same step, or after all others. -/
def putChild (s : Segment) (c : PathNode α) :
    List (Segment × PathNode α) → List (Segment × PathNode α)
  | [] => [(s, c)]
  | (t, d) :: cs => if t = s then (s, c) :: cs else (t, d) :: putChild s c cs

/-- Attaches a collector where a path ends. New nodes are numbered from `next` on; the answer holds
the next free number and the number of the node at the end. -/
def insert (a : α) : Path → Nat → PathNode α → PathNode α × Nat × Nat
  | [], next, .make id visited collectors children =>
    (.make id visited (collectors ++ [a]) children, next, id)
  | s :: path, next, .make id visited collectors children =>
    match (PathNode.make id visited collectors children).child? s with
    | some c =>
      let (c, next, stop) := insert a path next c
      (.make id visited collectors (putChild s c children), next, stop)
    | none =>
      let (c, next, stop) := insert a path (next + 1) (leaf next)
      (.make id visited collectors (putChild s c children), next, stop)

mutual

def withId? (k : Nat) : PathNode α → Option (PathNode α)
  | .make id visited collectors children =>
    if id = k then some (.make id visited collectors children) else childWithId? k children

def childWithId? (k : Nat) : List (Segment × PathNode α) → Option (PathNode α)
  | [] => none
  | (_, c) :: cs => (c.withId? k).or (childWithId? k cs)

end

mutual

/-- Notes a visit at the node with the given number. -/
def markVisit (k i : Nat) : PathNode α → PathNode α
  | .make id visited collectors children =>
    .make id (if id = k then i else visited) collectors (markVisitBelow k i children)

def markVisitBelow (k i : Nat) : List (Segment × PathNode α) → List (Segment × PathNode α)
  | [] => []
  | (s, c) :: cs => (s, c.markVisit k i) :: markVisitBelow k i cs

end

end PathNode

/-- Paths merged by their common beginnings. -/
structure PathTree (α : Type) where
  root : PathNode α
  size : Nat

namespace PathTree

variable {α : Type}

def empty : PathTree α := ⟨.leaf 0, 1⟩

def isEmpty (t : PathTree α) : Bool := !t.root.hasChildren

def node? (id : Nat) (t : PathTree α) : Option (PathNode α) := t.root.withId? id

/-- Adds a path; the answer holds the number of the node where it ends. -/
def insert (path : Path) (a : α) (t : PathTree α) : Nat × PathTree α :=
  match t.root.insert a path t.size with
  | (root, size, stop) => (stop, ⟨root, size⟩)

def childForKey? (id : Nat) (key : String) (t : PathTree α) : Option Nat :=
  ((t.node? id).bind (PathNode.child? (.key key))).map PathNode.id

/-- The child for an element; a wildcard notes which element it was. -/
def childForIndex? (id i : Nat) (t : PathTree α) : Option Nat × PathTree α :=
  match (t.node? id).bind (PathNode.child? .wildcard) with
  | some c => (some c.id, { t with root := t.root.markVisit c.id i })
  | none => (((t.node? id).bind (PathNode.child? (.index i))).map PathNode.id, t)

end PathTree

end Quarry
