import Quarry.Document.Lookup
import Quarry.Scalar.Compare
import Quarry.Scalar.Json

namespace Quarry.Node

mutual

/-- The value of a node, its objects sorted by name and of repeated names the last. -/
def toJson : Node → Json.Value
  | .atom _ a => a.toScalar.toJson
  | .array _ items => .array (itemsToJson items)
  | .object _ members => .object (Json.sortMembers (membersToJson members))

def itemsToJson : List Node → List Json.Value
  | [] => []
  | n :: ns => n.toJson :: itemsToJson ns

def membersToJson : List (String × Node) → List (String × Json.Value)
  | [] => []
  | (k, n) :: ms => (k, n.toJson) :: membersToJson ms

end

theorem itemsToJson_eq_map (ns : List Node) : itemsToJson ns = ns.map toJson := by
  induction ns with
  | nil => rfl
  | cons n ns ih => simp [itemsToJson, ih]

theorem membersToJson_eq_map (ms : List (String × Node)) :
    membersToJson ms = ms.map fun m => (m.1, m.2.toJson) := by
  induction ms with
  | nil => rfl
  | cons m ms ih => simp [membersToJson, ih]

/-- How many names there are, each counted once. -/
def distinctNames : List (String × Node) → Nat
  | [] => 0
  | (k, _) :: ms => if ms.any (·.1 == k) then distinctNames ms else 1 + distinctNames ms

def atomEquals (n : Node) (v : Json.Value) : Bool :=
  match n with
  | .atom _ a => a.toScalar.equals (Scalar.ofJson v) = .bool true
  | _ => false

mutual

/-- Structural equality, where numbers are equal by value and the order of members is free. -/
def equalsJson (n : Node) : Json.Value → Bool
  | .array vs =>
    match n with
    | .array _ items => itemsEqual items vs
    | _ => false
  | .object expected =>
    match n with
    | .object _ members => distinctNames members == expected.length && membersEqual n expected
    | _ => false
  | .null => atomEquals n .null
  | .bool b => atomEquals n (.bool b)
  | .number x => atomEquals n (.number x)
  | .string s => atomEquals n (.string s)

def itemsEqual : List Node → List Json.Value → Bool
  | [], [] => true
  | n :: ns, v :: vs => n.equalsJson v && itemsEqual ns vs
  | _, _ => false

/-- Whether every expected member is there with an equal value. -/
def membersEqual (n : Node) : List (String × Json.Value) → Bool
  | [] => true
  | (k, v) :: ms =>
    (match n.member? k with
      | some m => m.equalsJson v
      | none => false) && membersEqual n ms

end

end Quarry.Node
