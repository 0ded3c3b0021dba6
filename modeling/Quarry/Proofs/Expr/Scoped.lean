import Quarry.Expr.Eval
import Quarry.Expr.Scope
import Quarry.Proofs.Expr.Soundness
import Quarry.Proofs.Json.Members

/-!
In an expression that is checked every field begins with an argument that is in scope where the
field stands. So wherever fields are looked up, quantifiers and aggregates nested in one another
included, the argument is bound, and to the element of the innermost range that goes by its name.
-/

namespace Quarry.Expr

/-! ### What a check ensures -/

/-- Every field begins with a name in scope and holds its path, and only fields are ranged over. -/
inductive Scoped : List String → Expr → Prop
  | field {scope : List String} {name arg : String} {steps : List Segment}
      (hpath : Path.parse name = .ok (.key arg :: steps)) (harg : arg ∈ scope) :
      Scoped scope (.field name (some (.key arg :: steps)))
  | literal (scope : List String) (a : Atom) : Scoped scope (.literal a)
  | unary {scope : List String} {e : Expr} (op : UnaryOp) (he : Scoped scope e) :
      Scoped scope (.unary op e)
  | binary {scope : List String} {l r : Expr} (op : BinaryOp) (hl : Scoped scope l)
      (hr : Scoped scope r) : Scoped scope (.binary op l r)
  | aggregate {scope : List String} {f b : Expr} {x : String} (op : AggregateOp)
      (hrange : f.isField = true) (hf : Scoped scope f) (hb : Scoped (x :: scope) b) :
      Scoped scope (.aggregate op f x b)
  | count {scope : List String} {f : Expr} (hrange : f.isField = true) (hf : Scoped scope f) :
      Scoped scope (.count f)
  | connect {scope : List String} {es : List Expr} (k : Connective)
      (hes : ∀ e ∈ es, Scoped scope e) : Scoped scope (.connect k es)
  | not {scope : List String} {e : Expr} (he : Scoped scope e) : Scoped scope (.not e)
  | quantifier {scope : List String} {f b : Expr} {x : String} (q : Quantifier)
      (hrange : f.isField = true) (hf : Scoped scope f) (hb : Scoped (x :: scope) b) :
      Scoped scope (.quantifier q f x b)

theorem resolveField_eq_ok {scope : List String} {name : String} {e : Expr}
    (h : resolveField scope name = .ok e) : e.isField = true ∧ Scoped scope e := by
  unfold resolveField at h
  split at h
  · cases h
  · rename_i arg rest hpath
    split at h
    · rename_i harg
      cases h
      exact ⟨rfl, .field hpath (List.contains_iff_mem.1 harg)⟩
    · cases h
  · cases h

theorem resolveIterated_eq_ok {scope : List String} {node : String} {f f' : Expr}
    (h : resolveIterated scope node f = .ok f') : f'.isField = true ∧ Scoped scope f' := by
  cases f with
  | field name path => exact resolveField_eq_ok h
  | _ => cases h

mutual

theorem scoped_of_resolve : (e : Expr) → ∀ {scope : List String} {e' : Expr},
    resolve scope e = .ok e' → Scoped scope e'
  | .field _ _, _, _, h => (resolveField_eq_ok h).2
  | .literal a, scope, _, h => by
    cases h
    exact .literal scope a
  | .unary op e, _, _, h => by
    obtain ⟨e', he, h⟩ := Parser.bind_eq_ok.1 h
    cases h
    exact .unary op (scoped_of_resolve e he)
  | .binary op l r, _, _, h => by
    obtain ⟨l', hl, h⟩ := Parser.bind_eq_ok.1 h
    obtain ⟨r', hr, h⟩ := Parser.bind_eq_ok.1 h
    cases h
    exact .binary op (scoped_of_resolve l hl) (scoped_of_resolve r hr)
  | .aggregate op f x b, _, _, h => by
    obtain ⟨f', hf, h⟩ := Parser.bind_eq_ok.1 h
    obtain ⟨b', hb, h⟩ := Parser.bind_eq_ok.1 h
    cases h
    obtain ⟨hrange, hf⟩ := resolveIterated_eq_ok hf
    exact .aggregate op hrange hf (scoped_of_resolve b hb)
  | .count f, _, _, h => by
    obtain ⟨f', hf, h⟩ := Parser.bind_eq_ok.1 h
    cases h
    obtain ⟨hrange, hf⟩ := resolveIterated_eq_ok hf
    exact .count hrange hf
  | .connect k es, _, _, h => by
    unfold resolve at h
    split at h
    · cases h
    · obtain ⟨es', hes, h⟩ := Parser.bind_eq_ok.1 h
      cases h
      exact .connect k (scoped_of_resolveAll es hes)
  | .not e, _, _, h => by
    obtain ⟨e', he, h⟩ := Parser.bind_eq_ok.1 h
    cases h
    exact .not (scoped_of_resolve e he)
  | .quantifier q f x b, _, _, h => by
    obtain ⟨f', hf, h⟩ := Parser.bind_eq_ok.1 h
    obtain ⟨b', hb, h⟩ := Parser.bind_eq_ok.1 h
    cases h
    obtain ⟨hrange, hf⟩ := resolveIterated_eq_ok hf
    exact .quantifier q hrange hf (scoped_of_resolve b hb)

theorem scoped_of_resolveAll : (es : List Expr) → ∀ {scope : List String} {es' : List Expr},
    resolveAll scope es = .ok es' → ∀ e ∈ es', Scoped scope e
  | [], _, _, h => by
    cases h
    exact List.forall_mem_nil _
  | e :: es, _, _, h => by
    obtain ⟨e', he, h⟩ := Parser.bind_eq_ok.1 h
    obtain ⟨es', hes, h⟩ := Parser.bind_eq_ok.1 h
    cases h
    exact List.forall_mem_cons.2 ⟨scoped_of_resolve e he, scoped_of_resolveAll es hes⟩

end

/-! ### Where arguments are looked up -/

/-- A field that is looked up, with the elements that the ranges around it stand at, the innermost
first. -/
structure Site where
  frames : Bindings
  field : Expr

mutual

/-- All lookups of an evaluation, in its order. -/
def sites (outer frames : Bindings) : Expr → List Site
  | .field name path => [⟨frames, .field name path⟩]
  | .literal _ => []
  | .unary _ e => sites outer frames e
  | .binary _ l r => sites outer frames l ++ sites outer frames r
  | .aggregate _ f x b =>
    ⟨frames, f⟩ :: (((elements (frames ++ outer) f).toOption.getD []).flatMap fun n =>
      sites outer ((x, n) :: frames) b)
  | .count f => [⟨frames, f⟩]
  | .connect _ es => sitesAll outer frames es
  | .not e => sites outer frames e
  | .quantifier _ f x b =>
    ⟨frames, f⟩ :: (((elements (frames ++ outer) f).toOption.getD []).flatMap fun n =>
      sites outer ((x, n) :: frames) b)

def sitesAll (outer frames : Bindings) : List Expr → List Site
  | [] => []
  | e :: es => sites outer frames e ++ sitesAll outer frames es

end

/-- The argument that a field begins with is bound: to the element of the innermost range around
it that has the name, or else from outside. -/
def Site.Bound (outer : Bindings) (s : Site) (n : Node) (steps : List Segment) : Prop :=
  ∃ name arg, Path.parse name = .ok (.key arg :: steps) ∧
    s.field = .field name (some (.key arg :: steps)) ∧
    (Json.find? arg s.frames).or (Json.find? arg outer) = some n

theorem Scoped.bound {outer frames : Bindings} {f : Expr} {scope : List String}
    (h : Scoped scope f) (hrange : f.isField = true)
    (hscope : ∀ x ∈ scope, (Json.find? x (frames ++ outer)).isSome = true) :
    ∃ n steps, Site.Bound outer ⟨frames, f⟩ n steps := by
  cases h with
  | @field _ name arg steps hpath harg =>
    obtain ⟨n, hn⟩ := Option.isSome_iff_exists.1 (hscope arg harg)
    rw [Json.find?_append] at hn
    exact ⟨n, steps, name, arg, hpath, rfl, hn⟩
  | _ => cases hrange

/-- An element that is gone to is bound under its name, and what was bound stays so. -/
theorem isSome_find?_cons {bindings : Bindings} {scope : List String} {x : String} (n : Node)
    (h : ∀ y ∈ scope, (Json.find? y bindings).isSome = true) :
    ∀ y ∈ x :: scope, (Json.find? y ((x, n) :: bindings)).isSome = true := by
  intro y hy
  rw [Json.find?_cons]
  split
  · rfl
  · rename_i hne
    rcases List.mem_cons.1 hy with rfl | hy
    · exact absurd rfl hne
    · exact h y hy

mutual

theorem sites_bound (outer : Bindings) : (e : Expr) → ∀ {scope : List String} {frames : Bindings},
    Scoped scope e → (∀ x ∈ scope, (Json.find? x (frames ++ outer)).isSome = true) →
    ∀ s ∈ sites outer frames e, ∃ n steps, s.Bound outer n steps
  | .field name path, _, _, h, hscope => by
    rw [sites, List.forall_mem_singleton]
    exact h.bound rfl hscope
  | .literal _, _, _, _, _ => List.forall_mem_nil _
  | .unary _ e, _, _, h, hscope => by
    cases h with
    | unary _ he => exact sites_bound outer e he hscope
  | .binary _ l r, _, _, h, hscope => by
    cases h with
    | binary _ hl hr =>
      rw [sites, List.forall_mem_append]
      exact ⟨sites_bound outer l hl hscope, sites_bound outer r hr hscope⟩
  | .aggregate _ f x b, _, _, h, hscope => by
    cases h with
    | aggregate _ hrange hf hb =>
      rw [sites, List.forall_mem_cons]
      refine ⟨hf.bound hrange hscope, fun s hs => ?_⟩
      obtain ⟨n, _, hs⟩ := List.mem_flatMap.1 hs
      exact sites_bound outer b hb (isSome_find?_cons n hscope) s hs
  | .count _, _, _, h, hscope => by
    cases h with
    | count hrange hf =>
      rw [sites, List.forall_mem_singleton]
      exact hf.bound hrange hscope
  | .connect _ es, _, _, h, hscope => by
    cases h with
    | connect _ hes => exact sitesAll_bound outer es hes hscope
  | .not e, _, _, h, hscope => by
    cases h with
    | not he => exact sites_bound outer e he hscope
  | .quantifier _ f x b, _, _, h, hscope => by
    cases h with
    | quantifier _ hrange hf hb =>
      rw [sites, List.forall_mem_cons]
      refine ⟨hf.bound hrange hscope, fun s hs => ?_⟩
      obtain ⟨n, _, hs⟩ := List.mem_flatMap.1 hs
      exact sites_bound outer b hb (isSome_find?_cons n hscope) s hs

theorem sitesAll_bound (outer : Bindings) : (es : List Expr) →
    ∀ {scope : List String} {frames : Bindings}, (∀ e ∈ es, Scoped scope e) →
    (∀ x ∈ scope, (Json.find? x (frames ++ outer)).isSome = true) →
    ∀ s ∈ sitesAll outer frames es, ∃ n steps, s.Bound outer n steps
  | [], _, _, _, _ => List.forall_mem_nil _
  | e :: es, _, _, h, hscope => by
    obtain ⟨he, hes⟩ := List.forall_mem_cons.1 h
    rw [sitesAll, List.forall_mem_append]
    exact ⟨sites_bound outer e he hscope, sitesAll_bound outer es hes hscope⟩

end

end Quarry.Expr
