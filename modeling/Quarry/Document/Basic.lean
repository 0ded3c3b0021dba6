import Quarry.Json.Reader
import Quarry.Numeral.Reading
import Quarry.Scalar.Arithmetic
import Quarry.Scalar.Atom

namespace Quarry

/-- The place of a value: its number in reading order, and where its text stands. -/
structure Mark where
  id : Nat
  span : Json.Span
deriving Repr, DecidableEq

/-- A value of a document; members keep their order and may repeat a name. -/
inductive Node where
  | atom (mark : Mark) (value : Atom)
  | array (mark : Mark) (items : List Node)
  | object (mark : Mark) (members : List (String × Node))
deriving Repr

namespace Node

def mark : Node → Mark
  | .atom m _ => m
  | .array m _ => m
  | .object m _ => m

def id (n : Node) : Nat := n.mark.id

def span (n : Node) : Json.Span := n.mark.span

/-- A node as expressions see it: containers are only marked. -/
def scalar : Node → Scalar
  | .atom _ a => a.toScalar
  | .array _ _ => .array
  | .object _ _ => .object

mutual

/-- The number of nodes of a tree. -/
def size : Node → Nat
  | .atom _ _ => 1
  | .array _ items => 1 + sizeItems items
  | .object _ members => 1 + sizeMembers members

def sizeItems : List Node → Nat
  | [] => 0
  | n :: ns => n.size + sizeItems ns

def sizeMembers : List (String × Node) → Nat
  | [] => 0
  | (_, n) :: ms => n.size + sizeMembers ms

end

mutual

/-- The node of a tree with the given number. -/
def withId? (k : Nat) : Node → Option Node
  | .atom m a => if m.id = k then some (.atom m a) else none
  | .array m items => if m.id = k then some (.array m items) else withIdItems? k items
  | .object m members => if m.id = k then some (.object m members) else withIdMembers? k members

def withIdItems? (k : Nat) : List Node → Option Node
  | [] => none
  | n :: ns => (n.withId? k).or (withIdItems? k ns)

def withIdMembers? (k : Nat) : List (String × Node) → Option Node
  | [] => none
  | (_, n) :: ms => (n.withId? k).or (withIdMembers? k ms)

end

end Node

/-- A container that is still being read, its children in reverse. -/
structure OpenNode where
  isObject : Bool
  /-- The name it has in the container around it. -/
  name : String
  mark : Mark
  children : List (String × Node)

def OpenNode.close (o : OpenNode) (span : Json.Span) : Node :=
  let children := o.children.reverse
  if o.isObject then .object ⟨o.mark.id, span⟩ children
  else .array ⟨o.mark.id, span⟩ (children.map Prod.snd)

/-- A document while it is being read: the open containers, the innermost first. -/
structure Building where
  count : Nat
  opened : List OpenNode
  root : Option Node

namespace Building

def empty : Building := ⟨0, [], none⟩

/-- Puts a node into the innermost open container. -/
def place (name : String) (n : Node) (b : Building) : Building :=
  match b.opened with
  | [] => { b with root := some n }
  | o :: os => { b with opened := { o with children := (name, n) :: o.children } :: os }

/-- Closes the innermost container, which ends before the given offset. -/
def close (stop : Nat) (b : Building) : Building :=
  match b.opened with
  | [] => b
  | o :: os => { b with opened := os }.place o.name (o.close ⟨o.mark.span.start, stop⟩)

/-- What has been read when reading breaks off: open containers end as they are. -/
def abandon : Nat → Building → Building
  | 0, b => b
  | n + 1, b =>
    match b.opened with
    | [] => b
    | o :: os => abandon n ({ b with opened := os }.place o.name (o.close o.mark.span))

/-- An integer that 64 bits cannot hold is floating point. -/
def numberAtom (text : String) (isInteger : Bool) : Atom :=
  match if isInteger then (Numeral.integer? text).bind Scalar.long? else none with
  | some n => .long n
  | none => .double ((Numeral.ofText? text).getD Numeral.nan)

def atom? : Json.Event → Option Atom
  | .string s => some (.string s)
  | .number text isInteger => some (numberAtom text isInteger)
  | .bool p => some (.bool p)
  | .null => some .null
  | _ => none

/-- Takes in the token a reader stands on. -/
def step (r : Json.Reader) (b : Building) : Building :=
  let name := r.key.getD ""
  let mark : Mark := ⟨b.count, r.span⟩
  if r.event.isEnd then b.close r.position
  else if r.event.isStart then
    { b with
      count := b.count + 1
      opened := ⟨r.event == .objectStart, name, mark, []⟩ :: b.opened }
  else
    match atom? r.event with
    | some a => { b with count := b.count + 1 }.place name (.atom mark a)
    | none => b

/-- Reads to the end; the fuel bounds the number of tokens. -/
def run : Nat → Json.Reader → Building → Building × Option Json.ReadError
  | 0, r, b => (b, some r.fault)
  | fuel + 1, r, b =>
    let r := r.next
    match r.event with
    | .eof => (b, none)
    | .error => (b.abandon b.opened.length, some r.fault)
    | _ => run fuel r (b.step r)

end Building

/-- A text read as a whole; an empty text has no root. -/
structure Document where
  maxDepth : Nat
  root : Option Node

namespace Document

def empty (maxDepth : Nat) : Document := ⟨maxDepth, none⟩

def clear (d : Document) : Document := { d with root := none }

def size (d : Document) : Nat := (d.root.map Node.size).getD 0

def node? (d : Document) (id : Nat) : Option Node := d.root.bind (Node.withId? id)

/-- A token takes at least one byte, apart from the last. -/
def fuelFor (input : Text.Bytes) : Nat := input.length + 2

/-- Reads a new text, whatever the document held before. What was read before a fault stays. -/
def parse (input : Text.Bytes) (d : Document) : Document × Option Json.ReadError :=
  let (b, e) := Building.run (fuelFor input) (Json.Reader.ofBytes d.maxDepth input) .empty
  ({ d with root := b.root }, e)

def read (maxDepth : Nat) (input : Text.Bytes) : Except Json.ReadError Document :=
  match (Document.empty maxDepth).parse input with
  | (d, none) => .ok d
  | (_, some e) => .error e

end Document

end Quarry
