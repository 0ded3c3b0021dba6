import Quarry.Patch.Operation
import Quarry.Pointer
import Quarry.Proofs.Document.Equality
import Quarry.Proofs.Document.Printing
import Quarry.Proofs.Patch.Change

/-!
Operations made one after another, as JSON Patch defines them.
-/

namespace Quarry.Patch.Operation

/-- The changes an operation makes of a value, if it finds there what it reads. -/
def changes (c : Content) : Operation → Option (List (List String × Change))
  | .replace path value => do
    let p ← Pointer.parse? path
    return [(p, .replace (.ofJson value))]
  | .add path value => do
    let p ← Pointer.parse? path
    return [(p, .add (.ofJson value))]
  | .remove path => do
    let p ← Pointer.parse? path
    return [(p, .remove)]
  | .copy source path => do
    let q ← Pointer.parse? source
    let v ← c.get? q
    let p ← Pointer.parse? path
    return [(p, .add v)]
  | .move source path => do
    let q ← Pointer.parse? source
    let v ← c.get? q
    let p ← Pointer.parse? path
    -- Nothing is moved into a part of itself.
    if q ≠ p ∧ q.isPrefixOf p then none else return [(q, .remove), (p, .add v)]
  | .test path value => do
    let p ← Pointer.parse? path
    let v ← c.get? p
    if v.equalsJson value then return [] else none

/-- A value after changes made one after another. -/
def makeAll (c : Content) (changes : List (List String × Change)) : Option Content :=
  changes.foldlM (fun c s => s.2.make s.1 c) c

theorem makeAll_cons (c : Content) (p : List String) (a : Change)
    (changes : List (List String × Change)) :
    makeAll c ((p, a) :: changes) = (a.make p c).bind fun c => makeAll c changes := rfl

theorem makeAll_singleton (c : Content) (p : List String) (a : Change) :
    makeAll c [(p, a)] = a.make p c := by
  rw [makeAll_cons]
  exact Option.bind_fun_some _

def step (c : Content) (op : Operation) : Option Content :=
  (op.changes c).bind (makeAll c)

def run (c : Content) (ops : List Operation) : Option Content := ops.foldlM step c

theorem run_cons (c : Content) (op : Operation) (ops : List Operation) :
    run c (op :: ops) = (step c op).bind fun c => run c ops := rfl

end Quarry.Patch.Operation
