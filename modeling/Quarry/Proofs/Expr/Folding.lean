import Quarry.Lambda
import Quarry.Proofs.Document.Reading
import Quarry.Proofs.Expr.Muted

/-!
An expression that is folded has the value it had before, up to the messages of errors, which quote
the expression. So a filter answers as its expression before folding would.
-/

namespace Quarry

namespace Expr

open Scalar (muted)

/-! ### Literals -/

theorem eq_literal {e : Expr} {a : Atom} (h : e.literal? = some a) : e = .literal a := by
  cases e with
  | literal b => exact congrArg literal (Option.some.inj h)
  | _ => cases h

theorem eq_map_literal {es : List Expr} {as : List Atom} (h : es.mapM literal? = some as) :
    es = as.map literal := by
  induction es generalizing as with
  | nil =>
    cases h
    rfl
  | cons e es ih =>
    rw [List.mapM_cons] at h
    obtain ⟨a, ha, h⟩ := Option.bind_eq_some_iff.1 h
    obtain ⟨as, has, h⟩ := Option.bind_eq_some_iff.1 h
    cases h
    rw [List.map_cons, eq_literal ha, ih has]

theorem literal_of_ofScalar? {s : Scalar} {e : Expr} (h : ofScalar? s = some e) :
    ∃ a, e = .literal a ∧ a.toScalar = s := by
  unfold ofScalar? at h
  split at h
  · rename_i x hx
    split at h
    · cases h
      exact ⟨_, rfl, Atom.toScalar_of_ofScalar? hx⟩
    · cases h
  · rename_i a _ ha
    cases h
    exact ⟨_, rfl, Atom.toScalar_of_ofScalar? ha⟩
  · cases h

theorem evalAll_literals (bindings : Bindings) (as : List Atom) :
    evalAll bindings (as.map literal) = as.map Atom.toScalar := by
  rw [evalAll_eq_map, List.map_map]
  rfl

/-- A node of literals has the same value under all bindings. -/
theorem muted_eval_of_literalValue? {e : Expr} {s : Scalar} (h : e.literalValue? = some s)
    (bindings : Bindings) : (eval bindings e).muted = .single s.muted := by
  cases e with
  | unary op e =>
    obtain ⟨a, ha, rfl⟩ := Option.map_eq_some_iff.1 h
    rw [eq_literal ha, eval, muted_annotate]
    rfl
  | binary op l r =>
    obtain ⟨a, ha, h⟩ := Option.bind_eq_some_iff.1 h
    obtain ⟨b, hb, h⟩ := Option.bind_eq_some_iff.1 h
    cases h
    rw [eq_literal ha, eq_literal hb, eval, muted_annotate]
    rfl
  | connect k es =>
    obtain ⟨as, has, rfl⟩ := Option.map_eq_some_iff.1 h
    rw [eq_map_literal has, eval, muted_annotate, evalAll_literals]
    rfl
  | not e =>
    obtain ⟨a, ha, rfl⟩ := Option.map_eq_some_iff.1 h
    rw [eq_literal ha, eval, muted_annotate]
    rfl
  | _ => cases h

theorem muted_eval_reduce (bindings : Bindings) (e : Expr) :
    (eval bindings e.reduce).muted = (eval bindings e).muted := by
  unfold reduce
  cases h : e.literalValue?.bind ofScalar? with
  | none => rfl
  | some e' =>
    obtain ⟨s, hs, he'⟩ := Option.bind_eq_some_iff.1 h
    obtain ⟨a, rfl, rfl⟩ := literal_of_ofScalar? he'
    rw [muted_eval_of_literalValue? hs]
    rfl

/-! ### Parts -/

section

variable {bindings bindings' : Bindings} {e e' l l' r r' f f' b b' : Expr} {x x' : String}

theorem muted_eval_unary (op : UnaryOp) (h : (eval bindings' e').muted = (eval bindings e).muted) :
    (eval bindings' (.unary op e')).muted = (eval bindings (.unary op e)).muted := by
  simp only [eval, muted_annotate]
  rw [← muted_map, h, muted_map]

theorem muted_eval_binary (op : BinaryOp) (hl : (eval bindings' l').muted = (eval bindings l).muted)
    (hr : (eval bindings' r').muted = (eval bindings r).muted) :
    (eval bindings' (.binary op l' r')).muted = (eval bindings (.binary op l r)).muted := by
  simp only [eval, muted_annotate]
  rw [← muted_zip, hl, hr, muted_zip]

theorem muted_eval_connect (k : Connective) {es es' : List Expr}
    (h : (evalAll bindings' es').map muted = (evalAll bindings es).map muted) :
    (eval bindings' (.connect k es')).muted = (eval bindings (.connect k es)).muted := by
  simp only [eval, muted_annotate, Result.muted_single]
  rw [← Scalar.connect_muted, h, Scalar.connect_muted]

theorem muted_toScalar_congr {t t' : Result} (h : t'.muted = t.muted) :
    t'.toScalar.muted = t.toScalar.muted := by
  rw [← muted_toScalar, h, muted_toScalar]

theorem muted_eval_not (h : (eval bindings' e').muted = (eval bindings e).muted) :
    (eval bindings' (.not e')).muted = (eval bindings (.not e)).muted := by
  simp only [eval, muted_annotate, Result.muted_single]
  rw [← Scalar.muted_apply Scalar.isError_not, muted_toScalar_congr h,
    Scalar.muted_apply Scalar.isError_not]

theorem muted_eval_each (ns : List Node)
    (h : ∀ n, (eval ((x', n) :: bindings') b').muted = (eval ((x, n) :: bindings) b).muted) :
    (ns.map fun n => (eval ((x', n) :: bindings') b').toScalar).map muted =
      (ns.map fun n => (eval ((x, n) :: bindings) b).toScalar).map muted := by
  simp only [List.map_map]
  exact List.map_congr_left fun n _ => muted_toScalar_congr (h n)

theorem muted_eval_quantifier (q : Quantifier)
    (hf : (elements bindings' f').mapError muted = (elements bindings f).mapError muted)
    (h : ∀ n, (eval ((x', n) :: bindings') b').muted = (eval ((x, n) :: bindings) b).muted) :
    (eval bindings' (.quantifier q f' x' b')).muted =
      (eval bindings (.quantifier q f x b)).muted := by
  simp only [eval]
  rcases mapError_muted_cases hf with ⟨ns, hns', hns⟩ | ⟨s, s', hs', hs, heq⟩
  · rw [hns', hns]
    simp only [Result.muted_single]
    rw [quantified_range f.text, ← quantified_muted, muted_eval_each ns h, quantified_muted]
  · rw [hs', hs]
    exact congrArg Result.single heq

theorem muted_eval_aggregate (op : AggregateOp)
    (hf : (elements bindings' f').mapError muted = (elements bindings f).mapError muted)
    (h : ∀ n, (eval ((x', n) :: bindings') b').muted = (eval ((x, n) :: bindings) b).muted) :
    (eval bindings' (.aggregate op f' x' b')).muted =
      (eval bindings (.aggregate op f x b)).muted := by
  simp only [eval]
  rcases mapError_muted_cases hf with ⟨ns, hns', hns⟩ | ⟨s, s', hs', hs, heq⟩
  · rw [hns', hns]
    simp only [Result.muted_single]
    rw [aggregateAll_range op f.text, ← aggregateAll_muted, muted_eval_each ns h,
      aggregateAll_muted]
  · rw [hs', hs]
    exact congrArg Result.single heq

end

mutual

theorem muted_eval_fold : (e : Expr) → (bindings : Bindings) →
    (eval bindings e.fold).muted = (eval bindings e).muted
  | .field _ _, _ => rfl
  | .literal _, _ => rfl
  | .unary op e, bindings => by
    rw [fold, muted_eval_reduce]
    exact muted_eval_unary op (muted_eval_fold e bindings)
  | .binary op l r, bindings => by
    rw [fold, muted_eval_reduce]
    exact muted_eval_binary op (muted_eval_fold l bindings) (muted_eval_fold r bindings)
  | .aggregate op f x b, _ => by
    rw [fold]
    exact muted_eval_aggregate op rfl fun _ => muted_eval_fold b _
  | .count _, _ => rfl
  | .connect k es, bindings => by
    rw [fold, muted_eval_reduce]
    exact muted_eval_connect k (muted_evalAll_fold es bindings)
  | .not e, bindings => by
    rw [fold, muted_eval_reduce]
    exact muted_eval_not (muted_eval_fold e bindings)
  | .quantifier q f x b, _ => by
    rw [fold]
    exact muted_eval_quantifier q rfl fun _ => muted_eval_fold b _

theorem muted_evalAll_fold : (es : List Expr) → (bindings : Bindings) →
    (evalAll bindings (foldAll es)).map muted = (evalAll bindings es).map muted
  | [], _ => rfl
  | e :: es, bindings => by
    simp only [foldAll, evalAll, List.map_cons, muted_evalAll_fold es bindings,
      muted_toScalar_congr (muted_eval_fold e bindings)]

end

end Expr

/-! ### Filters -/

theorem Lambda.make_eq_ok {arg : String} {e : Expr} {config : Config} {l : Lambda}
    (h : Lambda.make arg e config = .ok l) :
    ∃ e', Expr.resolve [arg] e = .ok e' ∧ l = ⟨arg, e'.fold, .empty config.maxDepth, []⟩ := by
  unfold Lambda.make at h
  cases he : Expr.resolve [arg] e with
  | error fault =>
    rw [he] at h
    cases h
  | ok e' =>
    rw [he] at h
    cases h
    exact ⟨e', rfl, rfl⟩

namespace Filter

variable {input : Text.Bytes} {r r' : Expr.Result}

theorem decide_eq_true : decide r.toScalar = .ok true ↔ r = .single (.bool true) := by
  cases r with
  | single s => cases s <;> simp [decide, Expr.Result.toScalar]
  | many => simp [decide, Expr.Result.toScalar]

theorem decide_eq_error : (∃ message, decide r.toScalar = .error (.eval message)) ↔
    (∃ message, r = .single (.error message)) ∨ ∃ ss, r = .many ss := by
  cases r with
  | single s => cases s <;> simp [decide, Expr.Result.toScalar]
  | many => simp [decide, Expr.Result.toScalar]

theorem decide_eq_false : decide r.toScalar = .ok false ↔
    ∃ s, r = .single s ∧ s ≠ .bool true ∧ s.isError = false := by
  cases r with
  | single s => cases s <;> simp [decide, Expr.Result.toScalar, Scalar.isError]
  | many => simp [decide, Expr.Result.toScalar]

/-- Results that differ in messages only are answered alike. -/
theorem decide_congr (h : r'.muted = r.muted) :
    (decide r'.toScalar = .ok true ↔ decide r.toScalar = .ok true) ∧
      (decide r'.toScalar = .ok false ↔ decide r.toScalar = .ok false) ∧
      ((∃ message, decide r'.toScalar = .error (.eval message)) ↔
        ∃ message, decide r.toScalar = .error (.eval message)) := by
  have hs := Expr.muted_toScalar_congr h
  generalize r'.toScalar = s' at hs
  generalize r.toScalar = s at hs
  cases s <;> cases s' <;> simp_all [decide, Scalar.muted]

theorem filter_of_constant {f : Filter} {b : Bool} (h : f.lambda.body = .literal (.bool b))
    (input : Text.Bytes) : f.filter input = (.ok b, f) := by
  unfold filter kind
  rw [h]

/-- What the body gives for the root decides, also when it is not looked at. -/
theorem filter_of_read {f : Filter} {d : Document} {root : Node}
    (hd : Document.read f.lambda.document.maxDepth input = .ok d) (hroot : d.root = some root) :
    (f.filter input).1 = decide (Expr.eval [(f.lambda.arg, root)] f.lambda.body).toScalar := by
  have hparse := Document.parse_of_read hd
  have hload : f.lambda.load input =
      (.ok root, { f.lambda with document := d, bindings := [(f.lambda.arg, root)] }) := by
    unfold Lambda.load
    rw [hparse]
    simp only [hroot]
  by_cases hconst : ∃ b, f.lambda.body = .literal (.bool b)
  · obtain ⟨b, hb⟩ := hconst
    rw [filter_of_constant hb, hb]
    rfl
  · have hkind : f.kind = .lambda := by
      unfold kind
      split
      · rename_i b hb
        exact absurd ⟨b, hb⟩ hconst
      · rfl
    unfold filter
    rw [hkind]
    simp only [Lambda.evalResult, hload]

/-- Folding changes no value but the messages of errors. A filter answers for the body as it was
before it was folded, and a body that is folded to a truth value answers for every text. -/
theorem answers_unfolded :
    (∀ (e : Expr) (bindings : Expr.Bindings),
      (Expr.eval bindings e.fold).muted = (Expr.eval bindings e).muted) ∧
    ∀ {arg : String} {e : Expr} {config : Config} {l : Lambda},
      Lambda.make arg e config = .ok l →
      ∃ e', Expr.resolve [arg] e = .ok e' ∧ l.body = e'.fold ∧
        (∀ {input d root}, Document.read config.maxDepth input = .ok d → d.root = some root →
          let answer := ((Filter.mk l).filter input).1
          let r := Expr.eval [(arg, root)] e'
          (answer = .ok true ↔ r = .single (.bool true)) ∧
          ((∃ message, answer = .error (.eval message)) ↔
            (∃ message, r = .single (.error message)) ∨ ∃ ss, r = .many ss) ∧
          (answer = .ok false ↔ ∃ s, r = .single s ∧ s ≠ .bool true ∧ s.isError = false)) ∧
        ∀ b, l.body = .literal (.bool b) → ∀ input, ((Filter.mk l).filter input).1 = .ok b := by
  refine ⟨Expr.muted_eval_fold, fun {arg e config l} hl => ?_⟩
  obtain ⟨e', he', rfl⟩ := Lambda.make_eq_ok hl
  refine ⟨e', he', rfl, ?_, ?_⟩
  · intro input d root hd hroot answer r
    have hanswer : answer = decide (Expr.eval [(arg, root)] e'.fold).toScalar :=
      filter_of_read (f := ⟨⟨arg, e'.fold, .empty config.maxDepth, []⟩⟩) hd hroot
    obtain ⟨htrue, hfalse, herror⟩ := decide_congr (Expr.muted_eval_fold e' [(arg, root)])
    rw [hanswer]
    exact ⟨htrue.trans decide_eq_true, herror.trans decide_eq_error, hfalse.trans decide_eq_false⟩
  · intro b hb input
    rw [filter_of_constant hb]

/-- A sum is folded, and an error of the folded comparison is one of the comparison as it was. -/
theorem answers_unfolded_comparison :
    let e : Expr := .binary .lessThan (.field "o.a" none)
      (.binary .add (.literal (.long 1)) (.literal (.long 2)))
    ∃ l, Lambda.make "o" e {} = .ok l ∧ l.body = .binary .lessThan
        (.field "o.a" (some [.key "o", .key "a"])) (.literal (.long 3)) ∧
      ((Filter.mk l).filter (Text.bytes "\x7b\"a\":1\x7d")).1 = .ok true ∧
      ∃ message, ((Filter.mk l).filter (Text.bytes "\x7b\"a\":\"\"\x7d")).1 =
        .error (.eval message) := by
  intro e
  let path : Path := [.key "o", .key "a"]
  have hpath : Path.parse "o.a" = .ok path := by rfl
  have hresolve : Expr.resolve ["o"] e = .ok (.binary .lessThan (.field "o.a" (some path))
      (.binary .add (.literal (.long 1)) (.literal (.long 2)))) := by
    simp only [e, Expr.resolve, Expr.resolveField, hpath]
    rfl
  have hl : ∃ l, Lambda.make "o" e {} = .ok l := by
    unfold Lambda.make
    rw [hresolve]
    exact ⟨_, rfl⟩
  obtain ⟨l, hl⟩ := hl
  obtain ⟨e', he', hbody, hanswer, -⟩ := answers_unfolded.2 hl
  obtain rfl := Except.ok.inj (hresolve.symm.trans he')
  refine ⟨l, hl, ?_, ?_, ?_⟩
  · rw [hbody]
    rfl
  · have hd : Document.read 512 (Text.bytes "\x7b\"a\":1\x7d") =
        .ok ⟨512, some (.object ⟨0, ⟨0, 7⟩⟩ [("a", .atom ⟨1, ⟨5, 6⟩⟩ (.long 1))])⟩ := by rfl
    exact (hanswer hd rfl).1.2 (by rfl)
  · have hd : Document.read 512 (Text.bytes "\x7b\"a\":\"\"\x7d") =
        .ok ⟨512, some (.object ⟨0, ⟨0, 8⟩⟩ [("a", .atom ⟨1, ⟨5, 7⟩⟩ (.string ""))])⟩ := by rfl
    exact (hanswer hd rfl).2.1.2 (.inl ⟨_, rfl⟩)

end Filter

end Quarry
