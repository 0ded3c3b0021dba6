import Quarry.Proofs.Expr.Scoped
import Quarry.Proofs.Expr.Typed

/-!
Folding once is enough. An operation on literals is left only if it fails or its number is not
finite, and apart from the literals that stand for parts of the expression nothing is changed.
-/

namespace Quarry

/-- An error or a number that is not finite. -/
inductive Scalar.Unwritten : Scalar → Prop
  | error (message : String) : Unwritten (.error message)
  | double {x : Float} (h : x.isFinite = false) : Unwritten (.double x)

theorem Atom.isError_toScalar (a : Atom) : a.toScalar.isError = false := by
  cases a <;> rfl

namespace Expr

open Scalar (Computed Unwritten)

variable {e e' f : Expr} {s : Scalar}

/-! ### Operations on literals -/

inductive OnLiterals : Expr → Prop
  | unary (op : UnaryOp) (a : Atom) : OnLiterals (.unary op (.literal a))
  | binary (op : BinaryOp) (a b : Atom) : OnLiterals (.binary op (.literal a) (.literal b))
  | connect (k : Connective) (as : List Atom) : OnLiterals (.connect k (as.map .literal))
  | not (a : Atom) : OnLiterals (.not (.literal a))

/-- Nothing that folding would replace. -/
def Settled (e : Expr) : Prop := ∀ s, e.literalValue? = some s → ofScalar? s = none

theorem settled_of_none (h : e.literalValue? = none) : e.Settled := by
  intro s hs
  rw [h] at hs
  cases hs

theorem mapM_literal? (as : List Atom) : (as.map literal).mapM literal? = some as := by
  induction as with
  | nil => rfl
  | cons a as ih =>
    rw [List.map_cons, List.mapM_cons, ih]
    rfl

theorem OnLiterals.exists_value (h : e.OnLiterals) : ∃ s, e.literalValue? = some s := by
  cases h with
  | unary op a => exact ⟨_, rfl⟩
  | binary op a b => exact ⟨_, rfl⟩
  | connect k as =>
    rw [literalValue?, mapM_literal?]
    exact ⟨_, rfl⟩
  | not a => exact ⟨_, rfl⟩

theorem computed_of_literalValue? (h : e.literalValue? = some s) : s.Computed := by
  cases e with
  | unary op e =>
    obtain ⟨a, -, rfl⟩ := Option.map_eq_some_iff.1 h
    exact op.apply_computed a.toScalar
  | binary op l r =>
    obtain ⟨a, -, h⟩ := Option.bind_eq_some_iff.1 h
    obtain ⟨b, -, h⟩ := Option.bind_eq_some_iff.1 h
    cases h
    exact op.apply_computed a.toScalar b.toScalar
  | connect k es =>
    obtain ⟨as, -, rfl⟩ := Option.map_eq_some_iff.1 h
    exact (Scalar.connectFrom_truth k false false _).computed
  | not e =>
    obtain ⟨a, -, rfl⟩ := Option.map_eq_some_iff.1 h
    exact (Scalar.not_truth a.toScalar).computed
  | _ => cases h

theorem unwritten_of_computed (h : s.Computed) (hnone : ofScalar? s = none) : s.Unwritten := by
  cases h with
  | double x =>
    apply Unwritten.double
    by_contra hx
    rw [Bool.not_eq_false] at hx
    simp [ofScalar?, Atom.ofScalar?, hx] at hnone
  | error message => exact .error message
  | _ => cases hnone

theorem Settled.eval (h : e.Settled) (hl : e.OnLiterals) (bindings : Bindings) :
    ∃ s, eval bindings e = .single s ∧ s.Unwritten := by
  obtain ⟨s, hs⟩ := hl.exists_value
  have hmuted := muted_eval_of_literalValue? hs bindings
  have hunwritten := unwritten_of_computed (computed_of_literalValue? hs) (h s hs)
  cases hunwritten with
  | double hx => exact ⟨_, eq_single_of_muted hmuted rfl, .double hx⟩
  | error message =>
    -- The message names the operation, so only that it is an error is known.
    cases heval : Expr.eval bindings e with
    | many ss =>
      rw [heval] at hmuted
      cases hmuted
    | single t =>
      rw [heval] at hmuted
      cases t with
      | error message => exact ⟨_, rfl, .error message⟩
      | _ => cases hmuted

/-! ### What folding leaves -/

/-- Only fields are ranged over, by the node itself. -/
def OverField : Expr → Prop
  | .aggregate _ f _ _ => f.isField = true
  | .count f => f.isField = true
  | .quantifier _ f _ _ => f.isField = true
  | _ => True

def Ranged (e : Expr) : Prop := ∀ n ∈ e.nodes, n.OverField

theorem settled_of_isField (h : f.isField = true) : ∀ n ∈ f.nodes, n.Settled := by
  cases f with
  | field name path => exact List.forall_mem_singleton.2 (settled_of_none rfl)
  | _ => cases h

theorem settled_reduce {ns : List Expr} (hnodes : e.nodes = e :: ns) (h : ∀ n ∈ ns, n.Settled) :
    ∀ n ∈ e.reduce.nodes, n.Settled := by
  rcases reduce_cases e with ⟨hvalue, heq⟩ | ⟨a, -, heq⟩
  · rw [heq, hnodes, List.forall_mem_cons]
    constructor
    · intro s hs
      rwa [hs] at hvalue
    · exact h
  · rw [heq]
    exact List.forall_mem_singleton.2 (settled_of_none rfl)

mutual

theorem settled_fold : (e : Expr) → e.Ranged → ∀ n ∈ e.fold.nodes, n.Settled
  | .field _ _, _ => settled_of_isField rfl
  | .literal _, _ => List.forall_mem_singleton.2 (settled_of_none rfl)
  | .unary _ e, h => by
    rw [fold]
    exact settled_reduce rfl (settled_fold e (List.forall_mem_cons.1 h).2)
  | .binary _ l r, h => by
    obtain ⟨hl, hr⟩ := List.forall_mem_append.1 (List.forall_mem_cons.1 h).2
    rw [fold]
    exact settled_reduce rfl (List.forall_mem_append.2 ⟨settled_fold l hl, settled_fold r hr⟩)
  | .aggregate _ _ _ b, h => by
    obtain ⟨hrange, h⟩ := List.forall_mem_cons.1 h
    rw [fold, nodes, List.forall_mem_cons, List.forall_mem_append]
    refine ⟨settled_of_none rfl, settled_of_isField hrange, ?_⟩
    exact settled_fold b (List.forall_mem_append.1 h).2
  | .count _, h => by
    rw [fold, nodes, List.forall_mem_cons]
    exact ⟨settled_of_none rfl, settled_of_isField (List.forall_mem_cons.1 h).1⟩
  | .connect _ es, h => by
    rw [fold]
    exact settled_reduce rfl (settled_foldAll es (List.forall_mem_cons.1 h).2)
  | .not e, h => by
    rw [fold]
    exact settled_reduce rfl (settled_fold e (List.forall_mem_cons.1 h).2)
  | .quantifier _ _ _ b, h => by
    obtain ⟨hrange, h⟩ := List.forall_mem_cons.1 h
    rw [fold, nodes, List.forall_mem_cons, List.forall_mem_append]
    refine ⟨settled_of_none rfl, settled_of_isField hrange, ?_⟩
    exact settled_fold b (List.forall_mem_append.1 h).2

theorem settled_foldAll : (es : List Expr) → (∀ n ∈ nodesAll es, n.OverField) →
    ∀ n ∈ nodesAll (foldAll es), n.Settled
  | [], _ => List.forall_mem_nil _
  | e :: es, h => by
    obtain ⟨he, hes⟩ := List.forall_mem_append.1 h
    exact List.forall_mem_append.2 ⟨settled_fold e he, settled_foldAll es hes⟩

end

/-! ### What folding replaces -/

/-- Operators and literals alone. -/
inductive Ground : Expr → Prop
  | literal (a : Atom) : Ground (.literal a)
  | unary {e : Expr} (op : UnaryOp) (he : Ground e) : Ground (.unary op e)
  | binary {l r : Expr} (op : BinaryOp) (hl : Ground l) (hr : Ground r) : Ground (.binary op l r)
  | connect {es : List Expr} (k : Connective) (hes : ∀ e ∈ es, Ground e) : Ground (.connect k es)
  | not {e : Expr} (he : Ground e) : Ground (.not e)

/-- Literals stand for some ground parts, as their values; all else is as it was. -/
inductive Condenses : Expr → Expr → Prop
  | value {e : Expr} {a : Atom} (ground : e.Ground)
      (value : ∀ bindings, eval bindings e = .single a.toScalar) : Condenses e (.literal a)
  | field (name : String) (path : Option Path) : Condenses (.field name path) (.field name path)
  | unary {e e' : Expr} (op : UnaryOp) (he : Condenses e e') :
      Condenses (.unary op e) (.unary op e')
  | binary {l l' r r' : Expr} (op : BinaryOp) (hl : Condenses l l') (hr : Condenses r r') :
      Condenses (.binary op l r) (.binary op l' r')
  | aggregate {b b' : Expr} (op : AggregateOp) (f : Expr) (x : String) (hb : Condenses b b') :
      Condenses (.aggregate op f x b) (.aggregate op f x b')
  | count (f : Expr) : Condenses (.count f) (.count f)
  | connect {es es' : List Expr} (k : Connective) (hes : List.Forall₂ Condenses es es') :
      Condenses (.connect k es) (.connect k es')
  | not {e e' : Expr} (he : Condenses e e') : Condenses (.not e) (.not e')
  | quantifier {b b' : Expr} (q : Quantifier) (f : Expr) (x : String) (hb : Condenses b b') :
      Condenses (.quantifier q f x b) (.quantifier q f x b')

/-- What is reduced to a literal had literals for operands. -/
theorem literalValue?_of_reduce {a : Atom} (h : e.reduce = .literal a) (he : e.isLiteral = false) :
    ∃ s, e.literalValue? = some s := by
  rcases reduce_cases e with ⟨-, heq⟩ | ⟨a', hvalue, -⟩
  · rw [heq] at h
    rw [h] at he
    cases he
  · obtain ⟨s, hs, -⟩ := Option.bind_eq_some_iff.1 hvalue
    exact ⟨s, hs⟩

mutual

theorem ground_of_fold : (e : Expr) → ∀ {a : Atom}, e.fold = .literal a → e.Ground
  | .field _ _, _, h => nomatch h
  | .literal a, _, _ => .literal a
  | .unary op e, _, h => by
    obtain ⟨s, hs⟩ := literalValue?_of_reduce h rfl
    obtain ⟨a, ha, -⟩ := Option.map_eq_some_iff.1 hs
    exact .unary op (ground_of_fold e (eq_literal ha))
  | .binary op l r, _, h => by
    obtain ⟨s, hs⟩ := literalValue?_of_reduce h rfl
    obtain ⟨a, ha, hs⟩ := Option.bind_eq_some_iff.1 hs
    obtain ⟨b, hb, -⟩ := Option.bind_eq_some_iff.1 hs
    exact .binary op (ground_of_fold l (eq_literal ha)) (ground_of_fold r (eq_literal hb))
  | .aggregate _ _ _ _, _, h => nomatch h
  | .count _, _, h => nomatch h
  | .connect k es, _, h => by
    obtain ⟨s, hs⟩ := literalValue?_of_reduce h rfl
    obtain ⟨as, has, -⟩ := Option.map_eq_some_iff.1 hs
    exact .connect k (ground_of_foldAll es (eq_map_literal has))
  | .not e, _, h => by
    obtain ⟨s, hs⟩ := literalValue?_of_reduce h rfl
    obtain ⟨a, ha, -⟩ := Option.map_eq_some_iff.1 hs
    exact .not (ground_of_fold e (eq_literal ha))
  | .quantifier _ _ _ _, _, h => nomatch h

theorem ground_of_foldAll : (es : List Expr) → ∀ {as : List Atom},
    foldAll es = as.map literal → ∀ e ∈ es, e.Ground
  | [], _, _ => List.forall_mem_nil _
  | e :: es, [], h => nomatch h
  | e :: es, a :: as, h => by
    obtain ⟨he, hes⟩ := List.cons.inj h
    exact List.forall_mem_cons.2 ⟨ground_of_fold e he, ground_of_foldAll es hes⟩

end

theorem condenses_of_reduce (hfold : e.fold = e'.reduce) (h : e.Condenses e') :
    e.Condenses e.fold := by
  rcases reduce_cases e' with ⟨-, heq⟩ | ⟨a, -, heq⟩
  · rwa [hfold, heq]
  · rw [heq] at hfold
    rw [hfold]
    apply Condenses.value (ground_of_fold e hfold)
    intro bindings
    apply eval_eq_of_fold _ a.isError_toScalar
    rw [hfold, Expr.eval]

mutual

theorem condenses_fold : (e : Expr) → e.Condenses e.fold
  | .field name path => .field name path
  | .literal a => .value (.literal a) fun _ => rfl
  | .unary op e => condenses_of_reduce rfl (.unary op (condenses_fold e))
  | .binary op l r => condenses_of_reduce rfl (.binary op (condenses_fold l) (condenses_fold r))
  | .aggregate op f x b => .aggregate op f x (condenses_fold b)
  | .count f => .count f
  | .connect k es => condenses_of_reduce rfl (.connect k (condenses_foldAll es))
  | .not e => condenses_of_reduce rfl (.not (condenses_fold e))
  | .quantifier q f x b => .quantifier q f x (condenses_fold b)

theorem condenses_foldAll : (es : List Expr) → List.Forall₂ Condenses es (foldAll es)
  | [] => .nil
  | e :: es => .cons (condenses_fold e) (condenses_foldAll es)

end

/-! ### One pass -/

theorem Scoped.ranged {scope : List String} (h : Scoped scope e) : e.Ranged := by
  induction h with
  | field hpath harg => exact List.forall_mem_singleton.2 trivial
  | literal scope a => exact List.forall_mem_singleton.2 trivial
  | unary op he ih => exact List.forall_mem_cons.2 ⟨trivial, ih⟩
  | binary op hl hr ihl ihr =>
    exact List.forall_mem_cons.2 ⟨trivial, List.forall_mem_append.2 ⟨ihl, ihr⟩⟩
  | aggregate op hrange hf hb ihf ihb =>
    exact List.forall_mem_cons.2 ⟨hrange, List.forall_mem_append.2 ⟨ihf, ihb⟩⟩
  | count hrange hf ihf => exact List.forall_mem_cons.2 ⟨hrange, ihf⟩
  | connect k hes ih =>
    refine List.forall_mem_cons.2 ⟨trivial, fun n hn => ?_⟩
    rw [nodesAll_eq] at hn
    obtain ⟨e, he, hn⟩ := List.mem_flatMap.1 hn
    exact ih e he n hn
  | not he ih => exact List.forall_mem_cons.2 ⟨trivial, ih⟩
  | quantifier q hrange hf hb ihf ihb =>
    exact List.forall_mem_cons.2 ⟨hrange, List.forall_mem_append.2 ⟨ihf, ihb⟩⟩

theorem ranged_of_resolve {scope : List String} (h : resolve scope e = .ok e') : e'.Ranged :=
  (scoped_of_resolve e h).ranged

/-- Folding what is folded changes nothing; what is left of operations on literals fails or gives no
finite number; and all but the ground parts that literals stand for is as it was. -/
theorem fold_settles (h : e.Ranged) :
    e.fold.fold = e.fold ∧
      (∀ n ∈ e.fold.nodes, n.OnLiterals → ∀ bindings,
        ∃ s, eval bindings n = .single s ∧ s.Unwritten) ∧
      e.Condenses e.fold :=
  ⟨fold_fold e, fun n hn hl => (settled_fold e h n hn).eval hl, condenses_fold e⟩

/-- A negated number stays, as it is an error, and a sum within a quantifier becomes a literal. -/
theorem fold_settles_quantifier :
    let refused : Expr := .not (.literal (.long 1))
    let range : Expr := .field "o.a" none
    let e : Expr := .connect .and [refused, .quantifier .any range "x"
      (.binary .lessThan (.field "x" none)
        (.binary .add (.literal (.long 1)) (.literal (.long 2))))]
    let folded : Expr := .connect .and [refused, .quantifier .any range "x"
      (.binary .lessThan (.field "x" none) (.literal (.long 3)))]
    e.Ranged ∧ e.fold = folded ∧ folded.fold = folded ∧
      ∃ s, eval [] refused = .single s ∧ s.Unwritten := by
  intro refused range e folded
  have hranged : e.Ranged := by
    intro n hn
    simp only [e, refused, range, nodes, nodesAll, List.cons_append, List.nil_append,
      List.append_nil, List.mem_cons, List.not_mem_nil, or_false] at hn
    rcases hn with rfl | rfl | rfl | rfl | rfl | rfl | rfl | rfl | rfl | rfl <;> trivial
  have hfolded : e.fold = folded := by rfl
  obtain ⟨hagain, hleft, -⟩ := fold_settles hranged
  rw [hfolded] at hagain hleft
  refine ⟨hranged, hfolded, hagain, ?_⟩
  exact hleft refused (by simp [folded, nodes, nodesAll, refused]) (.not (.long 1)) []

end Expr

end Quarry
