import Quarry.Proofs.Document.Numbering
import Quarry.Proofs.Expr.Compiled
import Quarry.Proofs.Reuse

/-!
What is found in the nodes of a document is found in its JSON as well, repeated names included. So a
lambda that only names a field gives the value at the field's path in the JSON of the document.
-/

namespace Quarry

open Json Text

/-! ### Steps into JSON -/

namespace Json.Value

/-- The member of that name; objects that stand for nodes repeat none. -/
def member? (key : String) : Value → Option Value
  | .object members => find? key members
  | _ => none

def element? (i : Nat) : Value → Option Value
  | .array items => items[i]?
  | _ => none

def step? (v : Value) : Segment → Option Value
  | .key name => v.member? name
  | .index i => v.element? i
  | .wildcard => none

def follow (v : Value) : List Segment → Option Value
  | [] => some v
  | step :: steps => (v.step? step).bind fun w => follow w steps

end Json.Value

namespace Scalar

variable (s : Scalar)

theorem member?_toJson (key : String) : s.toJson.member? key = none := by
  cases s with
  | double x =>
    rw [toJson]
    split <;> rfl
  | _ => rfl

theorem element?_toJson (i : Nat) : s.toJson.element? i = none := by
  cases s with
  | double x =>
    rw [toJson]
    split <;> rfl
  | _ => rfl

end Scalar

namespace Node

/-- Of repeated names the last is found in the node, and the last is in the JSON. -/
theorem toJson_member? (key : String) (n : Node) :
    (n.member? key).map toJson = n.toJson.member? key := by
  cases n with
  | atom mark a => exact (a.toScalar.member?_toJson key).symm
  | array mark items => rfl
  | object mark members =>
    have hreverse : (members.map fun m => (m.1, m.2.toJson)).reverse =
        members.reverse.map fun m => (m.1, m.2.toJson) := List.map_reverse.symm
    rw [toJson, membersToJson_eq_map, Value.member?, find?_sortMembers, hreverse, find?_map]
    rfl

theorem toJson_element? (i : Nat) (n : Node) :
    (n.element? i).map toJson = n.toJson.element? i := by
  cases n with
  | atom mark a => exact (a.toScalar.element?_toJson i).symm
  | array mark items =>
    rw [toJson, itemsToJson_eq_map, Value.element?, List.getElem?_map]
    rfl
  | object mark members => rfl

theorem toJson_step? (s : Segment) (n : Node) : (n.step? s).map toJson = n.toJson.step? s := by
  cases s with
  | key name => exact n.toJson_member? name
  | index i => exact n.toJson_element? i
  | wildcard => rfl

theorem toJson_follow (steps : List Segment) (n : Node) :
    (Expr.follow n steps).map toJson = n.toJson.follow steps := by
  induction steps generalizing n with
  | nil => rfl
  | cons s steps ih =>
    rw [Expr.follow, Value.follow, ← toJson_step?]
    cases n.step? s with
    | none => rfl
    | some m => exact ih m

theorem mem_parts_of_step? {n m : Node} {s : Segment} (h : n.step? s = some m) : m ∈ n.parts := by
  cases n with
  | atom mark a => cases s <;> cases h
  | array mark items =>
    cases s with
    | key name => cases h
    | index i => exact List.mem_of_getElem? h
    | wildcard => cases h
  | object mark members =>
    cases s with
    | key name =>
      have hmem := mem_of_find? (show find? name members.reverse = some m from h)
      exact List.mem_map_of_mem (f := Prod.snd) (List.mem_reverse.1 hmem)
    | index i => cases h
    | wildcard => cases h

end Node

/-! ### Lambdas that are a field -/

namespace Lambda

variable {arg name : String} {e : Expr} {config : Config} {l : Lambda} {path : Option Path}
  {input : Bytes} {d : Document} {root : Node} {steps : List Segment}

/-- A field that is the body begins with the argument. -/
theorem path_of_make (h : Lambda.make arg e config = .ok l) (hbody : l.body = .field name path) :
    ∃ steps, path = some (.key l.arg :: steps) := by
  obtain ⟨e', hresolve, rfl⟩ := make_eq_ok h
  have hfold := Expr.resolve_fold e hresolve
  rw [show e'.fold = _ from hbody] at hfold
  -- The argument is the only name in scope.
  cases Expr.scoped_of_resolve _ hfold with
  | @field _ _ x steps _ hx =>
    obtain rfl := List.mem_singleton.1 hx
    exact ⟨steps, rfl⟩

theorem load_of_read (hd : Document.read l.document.maxDepth input = .ok d)
    (hroot : d.root = some root) :
    l.load input = (.ok root, { l with document := d, bindings := [(l.arg, root)] }) := by
  rw [load, Document.parse_of_read hd]
  simp only [hroot]

/-- Only what is under the field's path is asked of the document. -/
theorem eval_field (hbody : l.body = .field name (some (.key l.arg :: steps)))
    (hw : Path.hasWildcard steps = false) (hd : Document.read l.document.maxDepth input = .ok d)
    (hroot : d.root = some root) :
    (l.eval input).1 = .ok ((root.toJson.follow steps).getD .null) := by
  have hplain : plainField? l.body = some steps := by
    have hpath : Path.hasWildcard (.key l.arg :: steps) = false := by
      rw [Path.hasWildcard, List.contains_cons] at *
      simpa using hw
    rw [hbody, plainField?, hpath]
    rfl
  rw [eval, load_of_read hd hroot]
  simp only [hplain, Node.toJson_follow]

theorem evalResult_field (hbody : l.body = .field name (some (.key l.arg :: steps)))
    (hw : Path.hasWildcard steps = false) (hd : Document.read l.document.maxDepth input = .ok d)
    (hroot : d.root = some root) :
    (l.evalResult input).1 =
      .ok (.single (((Expr.follow root steps).map Node.scalar).getD .null)) := by
  rw [evalResult, load_of_read hd hroot]
  simp only [hbody, Expr.eval, Expr.evalField_root, hw, Bool.false_eq_true, ↓reduceIte]

/-- As JSON a value that is no container, and a missing one, do not show whether the field was
evaluated or projected. -/
theorem toJson_scalar_follow
    (h : ∀ m, Expr.follow root steps = some m → ∃ mark a, m = .atom mark a) :
    (((Expr.follow root steps).map Node.scalar).getD .null).toJson =
      (root.toJson.follow steps).getD .null := by
  rw [← Node.toJson_follow]
  cases hm : Expr.follow root steps with
  | none => rfl
  | some m =>
    obtain ⟨mark, a, rfl⟩ := h m hm
    rfl

end Lambda

/-- What a step finds at a node of a document is again a node of it, and its JSON is what the step
finds in the JSON of the node. So whatever was asked of a lambda before, one whose body is a field
without wildcards gives what is at the field's path in the JSON of the document, or null; and for
all but containers so does its result. -/
theorem lookups_agree_with_json :
    (∀ {depth : Nat} {input : Bytes} {d : Document}, Document.read depth input = .ok d →
      ∀ {id : Nat} {n : Node}, d.node? id = some n →
        (∀ key, (n.member? key).map Node.toJson = n.toJson.member? key) ∧
        (∀ i, (n.element? i).map Node.toJson = n.toJson.element? i) ∧
        (∀ s, (n.step? s).map Node.toJson = n.toJson.step? s) ∧
        ∀ s m, n.step? s = some m → d.node? m.id = some m) ∧
    ∀ {arg name : String} {e : Expr} {config : Config} {l : Lambda} {path : Option Path},
      Lambda.make arg e config = .ok l → l.body = .field name path →
      ∃ steps, path = some (.key arg :: steps) ∧
        (Path.hasWildcard steps = false →
          ∀ (calls : List Lambda.Call) {input : Bytes} {d : Document} {root : Node},
            Document.read config.maxDepth input = .ok d → d.root = some root →
            let used := calls.foldl Lambda.call l
            (used.eval input).1 = .ok ((root.toJson.follow steps).getD .null) ∧
              ((∀ m, Expr.follow root steps = some m → ∃ mark a, m = .atom mark a) →
                (used.evalResult input).1.map Expr.Result.toJson = (used.eval input).1)) := by
  constructor
  · intro depth input d hd id n hn
    refine ⟨(Node.toJson_member? · n), (Node.toJson_element? · n), (Node.toJson_step? · n), ?_⟩
    intro s m hm
    exact Document.node?_part hd hn (Node.mem_parts_of_step? hm)
  · intro arg name e config l path hmake hbody
    obtain ⟨steps, rfl⟩ := Lambda.path_of_make hmake hbody
    obtain ⟨e', -, rfl⟩ := Lambda.make_eq_ok hmake
    refine ⟨steps, rfl, ?_⟩
    intro hw calls input d root hd hroot used
    have halike := Lambda.alike_calls calls ⟨arg, e'.fold, .empty config.maxDepth, []⟩
    have heval := Lambda.eval_field hbody hw hd hroot
    have hresult := Lambda.evalResult_field hbody hw hd hroot
    rw [halike.eval_eq, halike.evalResult_eq, heval, hresult]
    refine ⟨rfl, ?_⟩
    intro hatom
    exact congrArg Except.ok (Lambda.toJson_scalar_follow hatom)

/-- Of two members of one name the second counts, both for its own steps and for a lambda that has
failed before. -/
theorem lookups_of_repeated_name :
    let input := bytes "\x7b\"a\":[1],\"a\":[2,\"\"]\x7d"
    (∃ d n m, Document.read 512 input = .ok d ∧ d.node? 0 = some n ∧ n.step? (.key "a") = some m ∧
      d.node? m.id = some m ∧ n.toJson.step? (.key "a") = some m.toJson) ∧
    ∃ l, Lambda.make "o" (.field "o.a[0]" none) {} = .ok l ∧
      let used := [Lambda.Call.eval (bytes "[")].foldl Lambda.call l
      (used.eval input).1 = .ok (.number (.int 2)) ∧
        (used.evalResult input).1.map Expr.Result.toJson = .ok (.number (.int 2)) := by
  intro input
  let second : Node := .array ⟨3, ⟨13, 19⟩⟩
    [.atom ⟨4, ⟨14, 15⟩⟩ (.long 2), .atom ⟨5, ⟨16, 18⟩⟩ (.string "")]
  let root : Node := .object ⟨0, ⟨0, 20⟩⟩
    [("a", .array ⟨1, ⟨5, 8⟩⟩ [.atom ⟨2, ⟨6, 7⟩⟩ (.long 1)]), ("a", second)]
  have hd : Document.read 512 input = .ok ⟨512, some root⟩ := by
    show Document.read 512 (bytes "\x7b\"a\":[1],\"a\":[2,\"\"]\x7d") = _
    rfl
  have hn : (⟨512, some root⟩ : Document).node? 0 = some root := rfl
  have hm : root.step? (.key "a") = some second := rfl
  obtain ⟨-, -, hstep, hnode⟩ := lookups_agree_with_json.1 hd hn
  have hjson := hstep (.key "a")
  rw [hm] at hjson
  refine ⟨⟨_, root, second, hd, hn, hm, hnode _ _ hm, hjson.symm⟩, ?_⟩
  let l : Lambda := ⟨"o", .field "o.a[0]" (some [.key "o", .key "a", .index 0]), .empty 512, []⟩
  have hmake : Lambda.make "o" (.field "o.a[0]" none) {} = .ok l := by rfl
  obtain ⟨steps, hsteps, hanswers⟩ := lookups_agree_with_json.2 hmake rfl
  obtain rfl : steps = [.key "a", .index 0] := by simpa using hsteps.symm
  obtain ⟨heval, hresult⟩ := hanswers rfl [.eval (bytes "[")] hd rfl
  have htwo : (root.toJson.follow [.key "a", .index 0]).getD .null = .number (.int 2) := by
    rw [← Node.toJson_follow]
    rfl
  rw [htwo] at heval
  refine ⟨l, hmake, heval, (hresult ?_).trans heval⟩
  rintro m ⟨⟩
  exact ⟨_, _, rfl⟩

end Quarry
