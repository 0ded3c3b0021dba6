import Quarry.Patch.Tree
import Quarry.Proofs.Document.Content

/-!
What the edits of a tree make of the members of a container.
-/

namespace Quarry.Patch

open Json

/-- What an edit makes of a member or element that is there: a text in its place, or nothing. -/
def Edit.outcome (isObject : Bool) (e : Edit) : Option (Option Text.Bytes) :=
  match e.kind with
  | .replace => some (some e.payload)
  | .add => if isObject then some (some e.payload) else none
  | .remove => if isObject then some none else none

/-- What an edit puts where nothing is. -/
def Edit.value? (e : Edit) : Option Text.Bytes :=
  match e.kind with
  | .replace => some e.payload
  | .add => some e.payload
  | .remove => none

section Members

variable {V W : Type} (payload : Text.Bytes → Option V)

/-- The members that the edits left over append; elements are never appended. -/
def appended (isObject : Bool) : List (String × Node) → Option (List (String × V))
  | [] => some []
  | (k, n) :: left =>
    if isObject then do
      let e ← n.edit
      let bs ← e.value?
      let v ← payload bs
      let vs ← appended isObject left
      return (k, v) :: vs
    else none

/-- One member or element and those after it; `entered` is what edits below it make of it. -/
def editMember (isObject : Bool) (k : String) (v : V)
    (entered : List (String × Node) → Option V)
    (rest : List (String × Node) → Option (List (String × V))) (left : List (String × Node)) :
    Option (List (String × V)) :=
  match Node.takeChild k left with
  | none => (rest left).map ((k, v) :: ·)
  | some (n, left) =>
    match n.edit with
    | none => do
      let v ← entered n.children
      let vs ← rest left
      return (k, v) :: vs
    | some e =>
      match e.outcome isObject with
      | none => none
      | some none => rest left
      | some (some bs) => do
        let v ← payload bs
        let vs ← rest left
        return (k, v) :: vs

def mapMembers (f : V → W) (ms : List (String × V)) : List (String × W) :=
  ms.map fun m => (m.1, f m.2)

theorem appended_map (f : V → W) (o : Bool) (left : List (String × Node)) :
    appended (fun bs => (payload bs).map f) o left =
      (appended payload o left).map (mapMembers f) := by
  induction left with
  | nil => rfl
  | cons c left ih =>
    obtain ⟨k, n⟩ := c
    rw [appended, appended]
    cases o with
    | false => rfl
    | true =>
      simp only [↓reduceIte, ih]
      cases n.edit with
      | none => rfl
      | some e =>
        cases he : e.value? with
        | none => simp [he]
        | some bs =>
          cases hp : payload bs with
          | none => simp [he, hp]
          | some v =>
            cases appended payload true left with
            | none => simp
            | some vs => simp [he, hp, mapMembers]

theorem editMember_map (f : V → W) (o : Bool) (k : String) (v : V)
    {entered : List (String × Node) → Option V} {entered' : List (String × Node) → Option W}
    {rest : List (String × Node) → Option (List (String × V))}
    {rest' : List (String × Node) → Option (List (String × W))}
    (he : ∀ cs, entered' cs = (entered cs).map f)
    (hr : ∀ cs, rest' cs = (rest cs).map (mapMembers f)) (left : List (String × Node)) :
    editMember (fun bs => (payload bs).map f) o k (f v) entered' rest' left =
      (editMember payload o k v entered rest left).map (mapMembers f) := by
  rw [editMember, editMember]
  cases Node.takeChild k left with
  | none =>
    simp only [hr, Option.map_map]
    rfl
  | some c =>
    obtain ⟨n, left⟩ := c
    simp only
    cases n.edit with
    | none =>
      simp only [he, hr]
      cases entered n.children with
      | none => rfl
      | some v' =>
        cases rest left with
        | none => rfl
        | some vs => rfl
    | some e =>
      simp only
      cases e.outcome o with
      | none => rfl
      | some out =>
        cases out with
        | none => simp only [hr]
        | some bs =>
          simp only [hr]
          cases payload bs with
          | none => rfl
          | some v' =>
            cases rest left with
            | none => rfl
            | some vs => rfl

end Members

/-! ### Values -/

section Values

variable (payload : Text.Bytes → Option Content)

mutual

/-- A value with the edits below it made, if all of them can be made. -/
def edited : Content → List (String × Node) → Option Content
  | .atom _, _ => none
  | .group o ms, cs => (editedMembers o ms cs).map (.group o)

def editedMembers (isObject : Bool) :
    List (String × Content) → List (String × Node) → Option (List (String × Content))
  | [], left => appended payload isObject left
  | (k, c) :: ms, left =>
    editMember payload isObject k c (edited c) (editedMembers isObject ms) left

end

end Values

end Quarry.Patch
