import Quarry.Proofs.Expr.Folding
import Quarry.Proofs.Expr.Rereading
import Quarry.Proofs.Expr.Running

/-!
The name of a bound argument does not matter. Where a range binds another name, and the fields that
refer to it begin with that name, every expression around it has the value it had before, up to the
messages of errors. The new name must not be captured, nor capture any other field.
-/

namespace Quarry.Expr

open Scalar (muted)

/-! ### Names -/

/-- The steps of a field, its argument first. -/
def route (name : String) (path : Option Path) : Except Path.Error Path :=
  path.elim (Path.parse name) .ok

/-- The argument that a field begins with. -/
def argument? (name : String) (path : Option Path) : Option String :=
  match route name path with
  | .ok (.key z :: _) => some z
  | _ => none

def head? : Expr → Option String
  | .field name path => argument? name path
  | _ => none

/-- The argument that a range binds. -/
def binder? : Expr → Option String
  | .aggregate _ _ x _ => some x
  | .quantifier _ _ x _ => some x
  | _ => none

def heads (e : Expr) : List String := e.nodes.filterMap head?

def binders (e : Expr) : List String := e.nodes.filterMap binder?

/-- A field that begins with one argument begins with another, and every other stays. -/
def renameField (x y name : String) (path : Option Path) : Expr :=
  match route name path with
  | .ok (.key z :: steps) =>
    if z = x then .field (Path.format (.key y :: steps)) (some (.key y :: steps))
    else .field name path
  | _ => .field name path

mutual

/-- Renames an argument in the fields that refer to it from outside: not where a range inside binds
the same name again. -/
def rename (x y : String) : Expr → Expr
  | .field name path => renameField x y name path
  | .literal a => .literal a
  | .unary op e => .unary op (rename x y e)
  | .binary op l r => .binary op (rename x y l) (rename x y r)
  | .aggregate op f z b =>
    .aggregate op (rename x y f) z (if z = x then b else rename x y b)
  | .count f => .count (rename x y f)
  | .connect k es => .connect k (renameAll x y es)
  | .not e => .not (rename x y e)
  | .quantifier q f z b =>
    .quantifier q (rename x y f) z (if z = x then b else rename x y b)

def renameAll (x y : String) : List Expr → List Expr
  | [] => []
  | e :: es => rename x y e :: renameAll x y es

end

section

variable (op : UnaryOp) (op₂ : BinaryOp) (agg : AggregateOp) (q : Quantifier) (k : Connective)
  (e l r f b : Expr) (es : List Expr) (x : String)

theorem heads_binary : (binary op₂ l r).heads = l.heads ++ r.heads := List.filterMap_append

theorem heads_aggregate : (aggregate agg f x b).heads = f.heads ++ b.heads :=
  List.filterMap_append

theorem heads_quantifier : (quantifier q f x b).heads = f.heads ++ b.heads :=
  List.filterMap_append

theorem heads_connect_cons :
    (connect k (e :: es)).heads = e.heads ++ (connect k es).heads := List.filterMap_append

theorem binders_binary : (binary op₂ l r).binders = l.binders ++ r.binders :=
  List.filterMap_append

theorem binders_aggregate : (aggregate agg f x b).binders = x :: (f.binders ++ b.binders) :=
  congrArg (x :: ·) List.filterMap_append

theorem binders_quantifier : (quantifier q f x b).binders = x :: (f.binders ++ b.binders) :=
  congrArg (x :: ·) List.filterMap_append

theorem binders_connect_cons :
    (connect k (e :: es)).binders = e.binders ++ (connect k es).binders := List.filterMap_append

end

/-! ### Bindings -/

variable {bindings bindings' : Bindings} {x y : String}

theorem mem_heads {name z : String} {path : Option Path} :
    z ∈ heads (.field name path) ↔ ∃ steps, route name path = .ok (.key z :: steps) := by
  have hmem : z ∈ heads (.field name path) ↔ argument? name path = some z := by
    simp [heads, nodes, head?]
  rw [hmem, argument?]
  split
  · rename_i w steps hroute
    simp [hroute]
  · rename_i hroute
    simp only [reduceCtorEq, false_iff]
    rintro ⟨steps, hz⟩
    exact hroute z steps hz

theorem anchor_of_route {name z : String} {path : Option Path} {steps : Path}
    (h : route name path = .ok (.key z :: steps)) (bindings : Bindings) :
    anchor bindings name path =
      match Json.find? z bindings with
      | some n => .ok (n, steps)
      | none => .error (.error s!"unknown argument '{z}' in field '{name}'") := by
  have hroute : path.elim (Path.parse name) .ok = .ok (.key z :: steps) := h
  unfold anchor
  generalize path.elim (Path.parse name) .ok = p at hroute
  subst hroute
  rfl

theorem anchor_congr {name : String} {path : Option Path}
    (h : ∀ z ∈ heads (.field name path), Json.find? z bindings' = Json.find? z bindings) :
    anchor bindings' name path = anchor bindings name path := by
  by_cases hroute : ∃ z steps, route name path = .ok (.key z :: steps)
  · obtain ⟨z, steps, hroute⟩ := hroute
    rw [anchor_of_route hroute, anchor_of_route hroute, h z (mem_heads.2 ⟨steps, hroute⟩)]
  · unfold anchor
    split
    · rfl
    · rename_i z steps hz
      exact absurd ⟨z, steps, hz⟩ hroute
    · rfl

theorem elements_congr {f : Expr}
    (h : ∀ z ∈ f.heads, Json.find? z bindings' = Json.find? z bindings) :
    elements bindings' f = elements bindings f := by
  cases f with
  | field name path => rw [elements, elements, anchor_congr h]
  | _ => rfl

theorem find?_bound {zs : List String} (n : Node)
    (h : ∀ z ∈ zs, Json.find? z bindings' = Json.find? z bindings) (w : String) :
    ∀ z ∈ zs, Json.find? z ((w, n) :: bindings') = Json.find? z ((w, n) :: bindings) := by
  intro z hz
  rw [Json.find?_cons, Json.find?_cons, h z hz]

mutual

/-- Only the arguments that fields begin with matter. -/
theorem eval_congr : (e : Expr) → ∀ {bindings bindings' : Bindings},
    (∀ z ∈ e.heads, Json.find? z bindings' = Json.find? z bindings) →
    eval bindings' e = eval bindings e
  | .field name path, _, _, h => by
    rw [eval, eval, evalField, evalField, anchor_congr h]
  | .literal _, _, _, _ => rfl
  | .unary op e, _, _, h => by
    rw [eval, eval, eval_congr e h]
  | .binary op l r, _, _, h => by
    rw [heads_binary, List.forall_mem_append] at h
    rw [eval, eval, eval_congr l h.1, eval_congr r h.2]
  | .aggregate op f w b, _, _, h => by
    rw [heads_aggregate, List.forall_mem_append] at h
    simp only [eval, elements_congr h.1, fun n => eval_congr b (find?_bound n h.2 w)]
  | .count f, _, _, h => by
    rw [eval, eval, elements_congr (f := f) h]
  | .connect k es, _, _, h => by
    rw [eval, eval, evalAll_congr k es h]
  | .not e, _, _, h => by
    rw [eval, eval, eval_congr e h]
  | .quantifier q f w b, _, _, h => by
    rw [heads_quantifier, List.forall_mem_append] at h
    simp only [eval, elements_congr h.1, fun n => eval_congr b (find?_bound n h.2 w)]

theorem evalAll_congr (k : Connective) : (es : List Expr) → ∀ {bindings bindings' : Bindings},
    (∀ z ∈ (connect k es).heads, Json.find? z bindings' = Json.find? z bindings) →
    evalAll bindings' es = evalAll bindings es
  | [], _, _, _ => rfl
  | e :: es, _, _, h => by
    rw [heads_connect_cons, List.forall_mem_append] at h
    rw [evalAll, evalAll, eval_congr e h.1, evalAll_congr k es h.2]

end

/-! ### Renamed arguments -/

/-- What an argument goes by after it is renamed. -/
def renamed (x y z : String) : String := if z = x then y else z

theorem renamed_eq_of_ne {z : String} (h : z ≠ x) : renamed x y z = z := if_neg h

theorem origin_renameField {name : String} {path : Option Path}
    (h : ∀ z ∈ heads (.field name path),
      Json.find? (renamed x y z) bindings' = Json.find? z bindings) :
    (origin bindings' (renameField x y name path)).mapError muted =
      (origin bindings (.field name path)).mapError muted := by
  by_cases hx : x ∈ heads (.field name path)
  · have hfind := h x hx
    rw [renamed, if_pos rfl] at hfind
    obtain ⟨steps, hroute⟩ := mem_heads.1 hx
    have hfield : renameField x y name path =
        .field (Path.format (.key y :: steps)) (some (.key y :: steps)) := by
      unfold renameField
      rw [hroute]
      exact if_pos rfl
    have hnew : route (Path.format (.key y :: steps)) (some (.key y :: steps)) =
        .ok (.key y :: steps) := rfl
    rw [hfield, origin_field, origin_field, anchor_of_route hnew, anchor_of_route hroute, hfind]
    cases Json.find? x bindings <;> rfl
  · have hfield : renameField x y name path = .field name path := by
      unfold renameField
      split
      · rename_i z steps hroute
        apply if_neg
        rintro rfl
        exact hx (mem_heads.2 ⟨steps, hroute⟩)
      · rfl
    rw [hfield, origin_field, origin_field, anchor_congr]
    intro z hz
    rw [← h z hz, renamed_eq_of_ne (ne_of_mem_of_not_mem hz hx)]

theorem exists_renameField (x y name : String) (path : Option Path) :
    ∃ name' path', renameField x y name path = .field name' path' := by
  unfold renameField
  split
  · split
    · exact ⟨_, _, rfl⟩
    · exact ⟨_, _, rfl⟩
  · exact ⟨_, _, rfl⟩

/-- Only fields have an origin. -/
theorem origin_not_field {f : Expr} (hf : f.isField = false) (bindings : Bindings) :
    (origin bindings f).mapError muted = .error (.error "") := by
  cases f with
  | field => cases hf
  | _ => rfl

theorem origin_rename {f : Expr}
    (h : ∀ z ∈ f.heads, Json.find? (renamed x y z) bindings' = Json.find? z bindings) :
    (origin bindings' (f.rename x y)).mapError muted = (origin bindings f).mapError muted := by
  cases f with
  | field name path => exact origin_renameField h
  | _ => exact (origin_not_field rfl bindings').trans (origin_not_field rfl bindings).symm

theorem muted_evalField {name name' : String} {path path' : Option Path}
    (h : (origin bindings' (.field name' path')).mapError muted =
      (origin bindings (.field name path)).mapError muted) :
    (evalField bindings' name' path').muted = (evalField bindings name path).muted := by
  rw [evalField_eq, evalField_eq]
  rcases mapError_muted_cases h with ⟨o, ho', ho⟩ | ⟨s, s', hs', hs, heq⟩
  · rw [ho', ho]
  · rw [hs', hs]
    exact congrArg Result.single heq

theorem muted_elements {f f' : Expr}
    (h : (origin bindings' f').mapError muted = (origin bindings f).mapError muted) :
    (elements bindings' f').mapError muted = (elements bindings f).mapError muted := by
  rw [elements_eq, elements_eq]
  rcases mapError_muted_cases h with ⟨o, ho', ho⟩ | ⟨s, s', hs', hs, heq⟩
  · rw [ho', ho]
    show (elementsAt f' o).mapError muted = (elementsAt f o).mapError muted
    unfold elementsAt
    split
    · rfl
    · split <;> rfl
  · rw [hs', hs]
    exact congrArg Except.error heq

theorem muted_eval_count {f f' : Expr}
    (hf : (elements bindings' f').mapError muted = (elements bindings f).mapError muted) :
    (eval bindings' (.count f')).muted = (eval bindings (.count f)).muted := by
  simp only [eval]
  rcases mapError_muted_cases hf with ⟨ns, hns', hns⟩ | ⟨s, s', hs', hs, heq⟩
  · rw [hns', hns]
  · rw [hs', hs]
    exact congrArg Result.single heq

/-- A range inside that binds neither name leaves the two bindings as they are to one another. -/
theorem find?_renamed {zs : List String} {w : String} (n : Node) (hx : w ≠ x) (hy : w ≠ y)
    (h : ∀ z ∈ zs, Json.find? (renamed x y z) bindings' = Json.find? z bindings) :
    ∀ z ∈ zs, Json.find? (renamed x y z) ((w, n) :: bindings') =
      Json.find? z ((w, n) :: bindings) := by
  intro z hz
  rw [Json.find?_cons, Json.find?_cons, h z hz]
  by_cases hzx : z = x
  · rw [hzx, renamed, if_pos rfl, if_neg hy, if_neg hx]
  · rw [renamed_eq_of_ne hzx]

/-- A range inside that binds the old name hides it. -/
theorem find?_hidden {zs : List String} (n : Node)
    (h : ∀ z ∈ zs, Json.find? (renamed x y z) bindings' = Json.find? z bindings) :
    ∀ z ∈ zs, Json.find? z ((x, n) :: bindings') = Json.find? z ((x, n) :: bindings) := by
  intro z hz
  rw [Json.find?_cons, Json.find?_cons]
  by_cases hzx : z = x
  · rw [hzx, if_pos rfl, if_pos rfl]
  · rw [← h z hz, renamed_eq_of_ne hzx]

/-- The body of a range inside. -/
theorem muted_eval_inside {b : Expr} {w : String} (n : Node)
    (h : ∀ z ∈ b.heads, Json.find? (renamed x y z) bindings' = Json.find? z bindings)
    (hy : w ≠ y)
    (hb : ∀ {bindings bindings' : Bindings},
      (∀ z ∈ b.heads, Json.find? (renamed x y z) bindings' = Json.find? z bindings) →
      (eval bindings' (b.rename x y)).muted = (eval bindings b).muted) :
    (eval ((w, n) :: bindings') (if w = x then b else b.rename x y)).muted =
      (eval ((w, n) :: bindings) b).muted := by
  by_cases hx : w = x
  · subst hx
    rw [if_pos rfl, eval_congr b (find?_hidden n h)]
  · rw [if_neg hx]
    exact hb (find?_renamed n hx hy h)

mutual

theorem muted_eval_rename : (b : Expr) → y ∉ b.binders → ∀ {bindings bindings' : Bindings},
    (∀ z ∈ b.heads, Json.find? (renamed x y z) bindings' = Json.find? z bindings) →
    (eval bindings' (b.rename x y)).muted = (eval bindings b).muted
  | .field name path, _, _, _, h => by
    have horigin := origin_renameField h
    obtain ⟨name', path', hfield⟩ := exists_renameField x y name path
    rw [rename, hfield]
    rw [hfield] at horigin
    exact muted_evalField horigin
  | .literal _, _, _, _, _ => rfl
  | .unary op e, hy, _, _, h => muted_eval_unary op (muted_eval_rename e hy h)
  | .binary op l r, hy, _, _, h => by
    rw [binders_binary, List.mem_append, not_or] at hy
    rw [heads_binary, List.forall_mem_append] at h
    exact muted_eval_binary op (muted_eval_rename l hy.1 h.1) (muted_eval_rename r hy.2 h.2)
  | .aggregate op f w b, hy, _, _, h => by
    rw [binders_aggregate, List.mem_cons, List.mem_append, not_or, not_or] at hy
    rw [heads_aggregate, List.forall_mem_append] at h
    obtain ⟨hw, -, hb⟩ := hy
    exact muted_eval_aggregate op (muted_elements (origin_rename h.1)) fun n =>
      muted_eval_inside n h.2 (Ne.symm hw) (muted_eval_rename b hb)
  | .count _, _, _, _, h => muted_eval_count (muted_elements (origin_rename h))
  | .connect k es, hy, _, _, h => muted_eval_connect k (muted_evalAll_rename k es hy h)
  | .not e, hy, _, _, h => muted_eval_not (muted_eval_rename e hy h)
  | .quantifier q f w b, hy, _, _, h => by
    rw [binders_quantifier, List.mem_cons, List.mem_append, not_or, not_or] at hy
    rw [heads_quantifier, List.forall_mem_append] at h
    obtain ⟨hw, -, hb⟩ := hy
    exact muted_eval_quantifier q (muted_elements (origin_rename h.1)) fun n =>
      muted_eval_inside n h.2 (Ne.symm hw) (muted_eval_rename b hb)

theorem muted_evalAll_rename (k : Connective) : (es : List Expr) → y ∉ (connect k es).binders →
    ∀ {bindings bindings' : Bindings},
    (∀ z ∈ (connect k es).heads, Json.find? (renamed x y z) bindings' = Json.find? z bindings) →
    (evalAll bindings' (renameAll x y es)).map muted = (evalAll bindings es).map muted
  | [], _, _, _, _ => rfl
  | e :: es, hy, _, _, h => by
    rw [binders_connect_cons, List.mem_append, not_or] at hy
    rw [heads_connect_cons, List.forall_mem_append] at h
    rw [renameAll, evalAll, evalAll, List.map_cons, List.map_cons,
      muted_toScalar_congr (muted_eval_rename e hy.1 h.1), muted_evalAll_rename k es hy.2 h.2]

end

/-! ### Surroundings -/

/-- An expression with a place left open. Only fields stand for what is ranged over. -/
inductive Context where
  | here
  | unary (op : UnaryOp) (c : Context)
  | left (op : BinaryOp) (c : Context) (r : Expr)
  | right (op : BinaryOp) (l : Expr) (c : Context)
  | aggregate (op : AggregateOp) (f : Expr) (x : String) (c : Context)
  | operand (k : Connective) (before : List Expr) (c : Context) (after : List Expr)
  | not (c : Context)
  | quantifier (q : Quantifier) (f : Expr) (x : String) (c : Context)

def Context.fill (e : Expr) : Context → Expr
  | .here => e
  | .unary op c => .unary op (c.fill e)
  | .left op c r => .binary op (c.fill e) r
  | .right op l c => .binary op l (c.fill e)
  | .aggregate op f x c => .aggregate op f x (c.fill e)
  | .operand k before c after => .connect k (before ++ c.fill e :: after)
  | .not c => .not (c.fill e)
  | .quantifier q f x c => .quantifier q f x (c.fill e)

theorem muted_eval_fill {e e' : Expr}
    (h : ∀ bindings, (eval bindings e').muted = (eval bindings e).muted) (c : Context)
    (bindings : Bindings) :
    (eval bindings (c.fill e')).muted = (eval bindings (c.fill e)).muted := by
  induction c generalizing bindings with
  | here => exact h bindings
  | unary op c ih => exact muted_eval_unary op (ih bindings)
  | left op c r ih => exact muted_eval_binary op (ih bindings) rfl
  | right op l c ih => exact muted_eval_binary op rfl (ih bindings)
  | aggregate op f x c ih => exact muted_eval_aggregate op rfl fun n => ih _
  | operand k before c after ih =>
    apply muted_eval_connect
    simp only [evalAll_eq_map, List.map_append, List.map_cons, muted_toScalar_congr (ih bindings)]
  | not c ih => exact muted_eval_not (ih bindings)
  | quantifier q f x c ih => exact muted_eval_quantifier q rfl fun n => ih _

/-- What is asked of the elements of a range. -/
inductive Question where
  | quantifier (q : Quantifier)
  | aggregate (op : AggregateOp)

def Question.over (f : Expr) (x : String) (b : Expr) : Question → Expr
  | .quantifier q => .quantifier q f x b
  | .aggregate op => .aggregate op f x b

theorem muted_eval_over {f b : Expr} (hy : y ∉ b.heads) (hb : y ∉ b.binders) (q : Question)
    (bindings : Bindings) :
    (eval bindings (q.over f y (b.rename x y))).muted = (eval bindings (q.over f x b)).muted := by
  have hbody (n : Node) : (eval ((y, n) :: bindings) (b.rename x y)).muted =
      (eval ((x, n) :: bindings) b).muted := by
    apply muted_eval_rename b hb
    intro z hz
    by_cases hzx : z = x
    · rw [hzx, renamed, if_pos rfl, Json.find?_cons, Json.find?_cons, if_pos rfl, if_pos rfl]
    · have hzy : z ≠ y := ne_of_mem_of_not_mem hz hy
      rw [renamed_eq_of_ne hzx, Json.find?_cons, Json.find?_cons, if_neg (Ne.symm hzy),
        if_neg (Ne.symm hzx)]
  cases q with
  | quantifier q => exact muted_eval_quantifier q rfl hbody
  | aggregate op => exact muted_eval_aggregate op rfl hbody

/-- The argument of a range goes by another name wherever it is referred to, if no field of the body
begins with the new name and nothing in it binds it. -/
theorem eval_renamed {f b : Expr} (hy : y ∉ b.heads) (hb : y ∉ b.binders) (c : Context)
    (q : Question) (bindings : Bindings) :
    (eval bindings (c.fill (q.over f y (b.rename x y)))).muted =
      (eval bindings (c.fill (q.over f x b))).muted :=
  muted_eval_fill (muted_eval_over hy hb q) c bindings

/-- The range inside binds the old name again, so that only what it goes over is renamed. -/
theorem eval_renamed_shadowed :
    let key (z : String) (steps : Path) : Option Path := some (.key z :: steps)
    let inside (z : String) : Expr := .quantifier .any (.field z (key z [])) "g"
      (.binary .equal (.field "g" (key "g" [])) (.field "o.n" (key "o" [.key "n"])))
    let first (z : String) : Expr :=
      .binary .equal (.field (z ++ "[0]") (key z [.index 0])) (.literal (.long 1))
    let body (z : String) : Expr := .connect .and [inside z, first z]
    let range : Expr := .field "o.groups" (key "o" [.key "groups"])
    "h" ∉ (body "g").heads ∧ "h" ∉ (body "g").binders ∧
      (body "g").rename "g" "h" = body "h" ∧
      ∀ bindings, (eval bindings (.not (.quantifier .any range "h" (body "h")))).muted =
        (eval bindings (.not (.quantifier .any range "g" (body "g")))).muted := by
  intro key inside first body range
  have hheads : "h" ∉ (body "g").heads := by decide
  have hbinders : "h" ∉ (body "g").binders := by decide
  have hbody : (body "g").rename "g" "h" = body "h" := by rfl
  refine ⟨hheads, hbinders, hbody, fun bindings => ?_⟩
  rw [← hbody]
  exact eval_renamed hheads hbinders (.not .here) (.quantifier .any) bindings

end Quarry.Expr
