import Quarry.Document.Basic
import Quarry.Json.Value
import Quarry.Path

namespace Quarry

namespace Node

/-- The member of that name; of repeated names the last. -/
def member? (key : String) : Node → Option Node
  | .object _ members => Json.find? key members.reverse
  | _ => none

def element? (i : Nat) : Node → Option Node
  | .array _ items => items[i]?
  | _ => none

def elements? : Node → Option (List Node)
  | .array _ items => some items
  | _ => none

/-- Follows a step that leads to one value at most. -/
def step? (n : Node) : Segment → Option Node
  | .key name => n.member? name
  | .index i => n.element? i
  | .wildcard => none

/-- Follows the tokens of a pointer. -/
def pointer? (n : Node) : List String → Option Node
  | [] => some n
  | t :: ts =>
    match n with
    | .object _ _ => (n.member? t).bind (pointer? · ts)
    | .array _ _ => (Numeral.index? t).bind fun i => (n.element? i).bind (pointer? · ts)
    | .atom _ _ => none

end Node

def Document.pointer? (d : Document) (tokens : List String) : Option Node :=
  d.root.bind (Node.pointer? · tokens)

end Quarry
