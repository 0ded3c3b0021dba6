import Quarry.Json.Parser

/-!
A tagged value names its kind under `op`, beside its fields: `{"op":"not","operand":…}`. It may also
be an array, the kind first and then the fields in their order: `["not",…]`.
-/

namespace Quarry.Json

/-- What a tagged value holds beside its kind. -/
inductive Body (α : Type) where
  | fields (members : List (String × α))
  | items (values : List α)

structure Tagged (α : Type) where
  kind : String
  body : Body α

namespace Body

def map {α β : Type} (f : α → β) : Body α → Body β
  | .fields ms => .fields (ms.map fun m => (m.1, f m.2))
  | .items vs => .items (vs.map f)

def theOnly? {α : Type} (k : String) (ms : List (String × α)) : Option α :=
  match ms.filter fun m => m.1 == k with
  | [m] => some m.2
  | _ => none

/-- The values of the named fields. Each has to be there once; other names are passed over. -/
def take? {α : Type} (names : List String) : Body α → Option (List α)
  | .fields ms => names.mapM fun k => theOnly? k ms
  | .items vs => if vs.length = names.length then some vs else none

end Body

def tagName : String := "op"

namespace Tagged

/-- The tag among values that were read already: a kind, or the place of one in the list. -/
def kind? (kinds : List String) : Value → Option String
  | .string s => if kinds.contains s then some s else none
  | .number (.int (.ofNat i)) => kinds[i]?
  | _ => none

def ofMembers? {α : Type} (kinds : List String) (value : α → Value) (ms : List (String × α)) :
    Option (Tagged α) := do
  let kind ← kind? kinds (value (← Body.theOnly? tagName ms))
  return ⟨kind, .fields (ms.filter fun m => m.1 != tagName)⟩

def ofItems? {α : Type} (kinds : List String) (value : α → Value) :
    List α → Option (Tagged α)
  | [] => none
  | t :: vs => (kind? kinds (value t)).map fun kind => ⟨kind, .items vs⟩

/-! ### Reading

The kind is checked as soon as it is read, all else when the value is complete. -/

open Quarry.Json.Parser

def readKind (kinds : List String) (cs : List Char) :
    Except DecodeError (String × List Char) := do
  let (v, cs) ← leaf strict cs
  match v with
  | .string s => if kinds.contains s then return (s, cs) else .error .misshapen
  | _ => .error .misshapen

/-- The members of an object up to its end, with the kind as far as it is known. -/
def readMembers (kinds : List String) (r : Rules) :
    Nat → Bool → Option String → List Char →
      Except DecodeError ((Option String × List (String × Value)) × List Char)
  | 0, _, _, _ => .error .ended
  | fuel + 1, started, kind, cs =>
    match skipSpace cs with
    | [] => .error .ended
    | c :: cs =>
      if c = '\x7d' then .ok ((kind, []), cs)
      else if started && c != ',' then .error .malformed
      else do
        let (k, cs) ← key r (if started then cs else c :: cs)
        if k = tagName then
          if kind.isSome then .error .misshapen
          else do
            let (kind, cs) ← readKind kinds (← mark ':' cs)
            readMembers kinds r fuel true (some kind) cs
        else do
          let (v, cs) ← value r fuel (← mark ':' cs)
          let ((kind, ms), cs) ← readMembers kinds r fuel true kind cs
          return ((kind, (k, v) :: ms), cs)

/-- The elements of an array up to its end, the first of which is the kind. -/
def readItems (kinds : List String) (r : Rules) (cs : List Char) :
    Except DecodeError (Tagged Value × List Char) :=
  match skipSpace cs with
  | [] => .error .ended
  | c :: cs =>
    if c = ']' then .error .misshapen
    else do
      let (kind, cs) ← readKind kinds (c :: cs)
      let (vs, cs) ← items r (fuelFor cs) true cs
      return (⟨kind, .items vs⟩, cs)

def read (kinds : List String) (r : Rules) (cs : List Char) :
    Except DecodeError (Tagged Value × List Char) :=
  match skipSpace cs with
  | [] => .error .ended
  | c :: cs =>
    if c = '[' then readItems kinds r.inside cs
    else if c = '\x7b' then do
      let ((kind, ms), cs) ← readMembers kinds r.inside (fuelFor cs) false none cs
      match kind with
      | some kind => return (⟨kind, .fields ms⟩, cs)
      | none => .error .misshapen
    else do
      let _ ← scalar r c cs
      .error .misshapen

end Tagged

/-- A value of the wrong shape is an error where it ends. -/
def shaped {α : Type} (a : Option α) (cs : List Char) : Except DecodeError (α × List Char) :=
  match a with
  | some a => .ok (a, cs)
  | none => .error .misshapen

end Quarry.Json
