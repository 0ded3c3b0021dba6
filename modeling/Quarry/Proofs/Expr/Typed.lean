import Quarry.Proofs.Expr.Compiled
import Quarry.Proofs.Scalar.Kinds

/-!
What kinds of values expressions have. Every expression has some value, and a predicate is true,
false or null unless it fails, so that a filter refuses a document for no other reason.
-/

namespace Quarry

namespace Expr

/-! ### Results -/

section

variable {P : Scalar → Prop} {r : Result}

theorem forall_values_single {s : Scalar} :
    (∀ t ∈ (Result.single s).values, P t) ↔ P s := List.forall_mem_singleton

theorem forall_values_map {f : Scalar → Scalar} (hf : ∀ s, P (f s)) (r : Result) :
    ∀ s ∈ (r.map f).values, P s := by
  cases r with
  | single s => exact forall_values_single.2 (hf s)
  | many ss => exact List.forall_mem_map.2 fun s _ => hf s

theorem forall_values_zip {f : Scalar → Scalar → Scalar} (herror : ∀ message, P (.error message))
    (hf : ∀ a b, P (f a b)) (r t : Result) : ∀ s ∈ (r.zip f t).values, P s := by
  cases r with
  | single a =>
    cases t with
    | single b => exact forall_values_single.2 (hf a b)
    | many bs => exact List.forall_mem_map.2 fun b _ => hf a b
  | many as =>
    cases t with
    | single b => exact List.forall_mem_map.2 fun a _ => hf a b
    | many bs =>
      show ∀ s ∈ (if as.length = bs.length then _ else _ : Result).values, P s
      split
      · intro s hs
        rw [Result.values, ← List.map_uncurry_zip_eq_zipWith] at hs
        obtain ⟨⟨a, b⟩, -, rfl⟩ := List.mem_map.1 hs
        exact hf a b
      · exact forall_values_single.2 (herror _)

/-- Only messages are changed. -/
theorem forall_values_annotate (herror : ∀ message, P (.error message)) {e : Expr}
    {operandError : Bool} (h : ∀ s ∈ r.values, P s) :
    ∀ s ∈ (annotate e operandError r).values, P s := by
  unfold annotate
  split
  · exact h
  · cases r with
    | single s =>
      rw [Result.map, forall_values_single]
      split
      · exact herror _
      · exact forall_values_single.1 h
    | many ss =>
      rw [Result.map, Result.values, List.forall_mem_map]
      intro s hs
      split
      · exact herror _
      · exact h s hs

end

theorem toScalar_ne_undefined {r : Result} (h : ∀ s ∈ r.values, s ≠ .undefined) :
    r.toScalar ≠ .undefined := by
  cases r with
  | single s => rwa [forall_values_single] at h
  | many => simp [Result.toScalar]

/-! ### Fields -/

theorem scalar_ne_undefined (n : Node) : n.scalar ≠ .undefined := by
  cases n with
  | atom _ a => cases a <;> simp [Node.scalar, Atom.toScalar]
  | _ => simp [Node.scalar]

theorem scalarOr_ne_undefined (n : Option Node) : (n.map Node.scalar).getD .null ≠ .undefined := by
  cases n with
  | none => simp
  | some n => exact scalar_ne_undefined n

theorem anchor_error {bindings : Bindings} {name : String} {path : Option Path} {s : Scalar}
    (h : anchor bindings name path = .error s) : s.isError = true := by
  unfold anchor at h
  split at h
  · cases h
    rfl
  · split at h <;> cases h
    rfl
  · cases h
    rfl

theorem elements_error {bindings : Bindings} {f : Expr} {s : Scalar}
    (h : elements bindings f = .error s) : s.isError = true := by
  unfold elements at h
  split at h
  · split at h
    · rename_i hanchor
      cases h
      exact anchor_error hanchor
    · split at h
      · cases h
      · split at h <;> cases h
        rfl
  · cases h
    rfl

theorem evalField_ne_undefined (bindings : Bindings) (name : String) (path : Option Path) :
    ∀ s ∈ (evalField bindings name path).values, s ≠ .undefined := by
  unfold evalField
  split
  · rename_i s hs
    exact forall_values_single.2 (Scalar.Tally.of_isError (anchor_error hs)).ne_undefined
  · split
    · exact List.forall_mem_map.2 fun n _ => scalarOr_ne_undefined n
    · exact forall_values_single.2 (scalarOr_ne_undefined _)

/-! ### Quantifiers and aggregates -/

theorem countTrue_error {range : String} {q : Quantifier} {n : Nat} {ss : List Scalar} {s : Scalar}
    (h : countTrue range q n ss = .error s) : s.isError = true := by
  induction ss generalizing n with
  | nil => cases h
  | cons t ss ih =>
    cases t with
    | bool b =>
      cases b with
      | true => exact ih h
      | false => exact ih h
    | null => exact ih h
    | _ =>
      cases h
      rfl

theorem quantified_typed (range : String) (q : Quantifier) (ss : List Scalar) :
    if q = .count then (quantified range q ss).Tally else (quantified range q ss).Verdict := by
  unfold quantified
  cases hcount : countTrue range q 0 ss with
  | error s =>
    have hs := countTrue_error hcount
    split
    · exact .of_isError hs
    · exact .of_isError hs
  | ok n =>
    cases q with
    | count => exact .long _
    | any => exact .bool _
    | all => exact .bool _

theorem extreme_ne_undefined {name : String} {better : Ordering} {best : Scalar} {ss : List Scalar}
    (hbest : best ≠ .undefined) (h : ∀ s ∈ ss, s ≠ .undefined) :
    extreme name better best ss ≠ .undefined := by
  induction ss generalizing best with
  | nil => exact hbest
  | cons s ss ih =>
    obtain ⟨hs, hss⟩ := List.forall_mem_cons.1 h
    unfold extreme
    split
    · rename_i e he
      exact (Scalar.order_truth he).ne_undefined
    · apply ih _ hss
      split
      · exact hs
      · exact hbest

theorem extremeOf_ne_undefined {op : AggregateOp} {better : Ordering} {ss : List Scalar}
    (h : ∀ s ∈ ss, s ≠ .undefined) : extremeOf op better ss ≠ .undefined := by
  cases ss with
  | nil => simp [extremeOf]
  | cons s ss =>
    obtain ⟨hs, hss⟩ := List.forall_mem_cons.1 h
    exact extreme_ne_undefined hs hss

theorem total_error {range : String} {ss : List Scalar} {s : Scalar}
    (h : total range ss = .error s) : s.isError = true := by
  unfold total at h
  generalize some Numeral.Fixed.zero = sum at h
  induction ss generalizing sum with
  | nil => cases h
  | cons t ss ih =>
    unfold decimalTotal at h
    split at h
    · cases h
      rfl
    · exact ih _ h

theorem sumLongs_tally (range : String) (sum : Int64) (ns : List Int64) :
    (sumLongs range sum ns).Tally := by
  induction ns generalizing sum with
  | nil => exact .long sum
  | cons n ns ih =>
    unfold sumLongs
    split
    · exact ih _
    · exact .error _

theorem aggregated_ne_undefined {op : AggregateOp} {range : String} {ss : List Scalar}
    (h : ∀ s ∈ ss, s ≠ .undefined) : aggregated op range ss ≠ .undefined := by
  have hfails {s : Scalar} (hs : total range ss = .error s) : s ≠ .undefined :=
    (Scalar.Tally.of_isError (total_error hs)).ne_undefined
  cases op with
  | min | max => exact extremeOf_ne_undefined h
  | sum =>
    show sumOf range ss ≠ _
    unfold sumOf
    split
    · exact (sumLongs_tally range 0 _).ne_undefined
    · split
      · simp
      · simp
      · exact hfails ‹_›
  | average =>
    show averageOf range ss ≠ _
    unfold averageOf
    split
    · simp
    · split
      · simp
      · simp
      · exact hfails ‹_›

theorem aggregateAll_ne_undefined {op : AggregateOp} {range : String} {ss : List Scalar}
    (h : ∀ s ∈ ss, s ≠ .undefined) : aggregateAll op range ss ≠ .undefined := by
  unfold aggregateAll
  split
  · rename_i e he
    exact h e (List.mem_of_find?_eq_some he)
  · exact aggregated_ne_undefined fun s hs => h s (List.mem_filter.1 hs).1

/-! ### Expressions -/

theorem eval_quantifier_typed (bindings : Bindings) (q : Quantifier) (f : Expr) (x : String)
    (b : Expr) : ∃ s, eval bindings (.quantifier q f x b) = .single s ∧
      if q = .count then s.Tally else s.Verdict := by
  rw [eval]
  split
  · rename_i s hs
    have hs := elements_error hs
    refine ⟨s, rfl, ?_⟩
    split
    · exact .of_isError hs
    · exact .of_isError hs
  · exact ⟨_, rfl, quantified_typed _ q _⟩

theorem eval_count_tally (bindings : Bindings) (f : Expr) :
    ∃ s, eval bindings (.count f) = .single s ∧ s.Tally := by
  rw [eval]
  split
  · rename_i s hs
    exact ⟨s, rfl, .of_isError (elements_error hs)⟩
  · exact ⟨_, rfl, .long _⟩

theorem eval_truth {e : Expr} (h : e.isBoolean = true) (bindings : Bindings) :
    ∀ s ∈ (eval bindings e).values, s.Truth := by
  cases e with
  | literal a =>
    cases a with
    | bool b => exact forall_values_single.2 (.bool b)
    | _ => cases h
  | binary op l r =>
    exact forall_values_annotate .error
      (forall_values_zip .error (BinaryOp.apply_truth h) _ _)
  | connect k es =>
    exact forall_values_annotate .error
      (forall_values_single.2 (Scalar.connectFrom_truth k false false _))
  | not e =>
    exact forall_values_annotate .error (forall_values_single.2 (Scalar.not_truth _))
  | quantifier q f x b =>
    obtain ⟨s, hs, htyped⟩ := eval_quantifier_typed bindings q f x b
    rw [hs]
    rw [forall_values_single]
    cases q with
    | any | all => exact (show s.Verdict from htyped).truth
    | count => cases h
  | _ => cases h

/-- Operations have a value whatever their operands are; only an aggregate hands on what its body
gives. -/
theorem eval_ne_undefined (e : Expr) (bindings : Bindings) :
    ∀ s ∈ (eval bindings e).values, s ≠ .undefined := by
  cases e with
  | field name path => exact evalField_ne_undefined bindings name path
  | literal a =>
    rw [eval, forall_values_single]
    cases a <;> simp [Atom.toScalar]
  | unary op e =>
    exact forall_values_annotate (by simp) (forall_values_map op.apply_ne_undefined _)
  | binary op l r =>
    exact forall_values_annotate (by simp)
      (forall_values_zip (by simp) op.apply_ne_undefined _ _)
  | aggregate op f x b =>
    rw [eval]
    split
    · rename_i s hs
      exact forall_values_single.2
        (Scalar.Tally.of_isError (elements_error hs)).ne_undefined
    · rw [forall_values_single]
      apply aggregateAll_ne_undefined
      rw [List.forall_mem_map]
      intro n _
      exact toScalar_ne_undefined (eval_ne_undefined b ((x, n) :: bindings))
  | count f =>
    obtain ⟨s, hs, htally⟩ := eval_count_tally bindings f
    rw [hs, forall_values_single]
    exact htally.ne_undefined
  | connect k es =>
    intro s hs
    exact (eval_truth (e := .connect k es) rfl bindings s hs).ne_undefined
  | not e =>
    intro s hs
    exact (eval_truth (e := .not e) rfl bindings s hs).ne_undefined
  | quantifier q f x b =>
    obtain ⟨s, hs, htyped⟩ := eval_quantifier_typed bindings q f x b
    rw [hs, forall_values_single]
    cases q with
    | any | all => exact (show s.Verdict from htyped).truth.ne_undefined
    | count => exact (show s.Tally from htyped).ne_undefined

theorem exists_of_complete {α : Type} {p : Json.Parser.Parse α} {a : α}
    (h : Json.Parser.complete p = .ok a) : ∃ cs, p = .ok (a, cs) := by
  obtain ⟨⟨b, cs⟩, hp, h⟩ := Parser.bind_eq_ok.1 h
  simp only at h
  split at h <;> cases h
  exact ⟨cs, hp⟩

/-- Only predicates are read. -/
theorem isBoolean_of_predicateOfWire {text : String} {e : Expr}
    (h : predicateOfWire text = .ok e) : e.isBoolean = true := by
  obtain ⟨⟨e', cs⟩, -, h⟩ := Parser.bind_eq_ok.1 h
  simp only at h
  split at h
  · rename_i hboolean
    obtain ⟨_, hcomplete⟩ := exists_of_complete (Lambda.mapError_eq_ok.1 h)
    cases hcomplete
    exact hboolean
  · cases h

theorem isBoolean_of_resolve {scope : List String} {e e' : Expr} (h : resolve scope e = .ok e') :
    e'.isBoolean = e.isBoolean := by
  rw [← isBoolean_bare, bare_resolve e h, isBoolean_bare]

theorem eq_single_of_muted {r : Result} {s : Scalar} (h : r.muted = .single s)
    (hs : s.isError = false) : r = .single s := by
  cases r with
  | single t =>
    obtain rfl := Result.single.inj h
    rw [Scalar.isError_muted] at hs
    rw [Scalar.muted_of_not_isError hs]
  | many => cases h

theorem eval_eq_of_fold {bindings : Bindings} {e : Expr} {s : Scalar}
    (h : eval bindings e.fold = .single s) (hs : s.isError = false) :
    eval bindings e = .single s := by
  apply eq_single_of_muted _ hs
  rw [← muted_eval_fold, h, Result.muted_single, Scalar.muted_of_not_isError hs]

end Expr

/-! ### Filters -/

namespace Filter

variable {text : String} {config : Config} {input : Text.Bytes} {f : Filter}

theorem ofWire_eq_ok (h : Filter.ofWire text config = .ok f) :
    ∃ e e', Expr.predicateOfWire text = .ok e ∧ Expr.resolve [config.rootArg] e = .ok e' ∧
      f = ⟨config.rootArg, e'.fold, .empty config.maxDepth, []⟩ := by
  obtain ⟨e, he, h⟩ := Expr.Parser.bind_eq_ok.1 h
  cases hmake : Lambda.make config.rootArg e config with
  | error fault =>
    rw [hmake] at h
    cases h
  | ok l =>
    rw [hmake] at h
    cases h
    obtain ⟨e', he', rfl⟩ := Lambda.make_eq_ok hmake
    exact ⟨e, e', Lambda.mapError_eq_ok.1 he, he', rfl⟩

/-- Unless the body is an answer by itself, what it gives for the root of the document decides. -/
theorem filter_eq_ok {b : Bool} (h : (f.filter input).1 = .ok b) :
    f.lambda.body = .literal (.bool b) ∨
    ∃ d root, Document.read f.lambda.document.maxDepth input = .ok d ∧ d.root = some root ∧
      decide (Expr.eval [(f.lambda.arg, root)] f.lambda.body).toScalar = .ok b := by
  unfold filter at h
  split at h
  · rename_i c hkind
    obtain rfl : c = b := Except.ok.inj h
    unfold kind at hkind
    split at hkind <;> cases hkind
    exact .inl ‹_›
  · right
    unfold Lambda.evalResult Lambda.load at h
    cases hparse : f.lambda.document.parse input with
    | mk d fault =>
      rw [hparse] at h
      cases fault with
      | some e => cases h
      | none =>
        have hread : Document.read f.lambda.document.maxDepth input = .ok d := by
          unfold Document.read
          rw [show (Document.empty f.lambda.document.maxDepth).parse input = _ from hparse]
        cases hroot : d.root with
        | none =>
          simp only [hroot] at h
          cases h
        | some root =>
          simp only [hroot] at h
          exact ⟨d, root, hread, hroot, h⟩

theorem false_or_null {s : Scalar} (hs : s.Truth) (hne : s ≠ .bool true)
    (hok : s.isError = false) : s = .bool false ∨ s = .null := by
  cases hs with
  | bool b =>
    cases b with
    | false => exact .inl rfl
    | true => exact absurd rfl hne
  | null => exact .inr rfl
  | error => cases hok

/-- A document is refused only where the predicate is false or null. -/
theorem refuses_of_ofWire (h : Filter.ofWire text config = .ok f) :
    ∃ e e', Expr.predicateOfWire text = .ok e ∧ Expr.resolve [config.rootArg] e = .ok e' ∧
      f.lambda.body = e'.fold ∧ ∀ input, (f.filter input).1 = .ok false →
        (∀ bindings, Expr.eval bindings e' = .single (.bool false)) ∨
        ∃ d root s, Document.read config.maxDepth input = .ok d ∧ d.root = some root ∧
          Expr.eval [(config.rootArg, root)] e' = .single s ∧ (s = .bool false ∨ s = .null) := by
  obtain ⟨e, e', he, he', rfl⟩ := ofWire_eq_ok h
  refine ⟨e, e', he, he', rfl, fun input hanswer => ?_⟩
  have hboolean : e'.isBoolean = true := by
    rw [Expr.isBoolean_of_resolve he', Expr.isBoolean_of_predicateOfWire he]
  rcases filter_eq_ok hanswer with hbody | ⟨d, root, hread, hroot, hdecide⟩
  · left
    intro bindings
    have hfold : Expr.eval bindings e'.fold = .single (.bool false) := by
      rw [show e'.fold = _ from hbody]
      rfl
    exact Expr.eval_eq_of_fold hfold rfl
  · right
    obtain ⟨s, hs, hne, hok⟩ := decide_eq_false.1 hdecide
    have heval : Expr.eval [(config.rootArg, root)] e' = .single s :=
      Expr.eval_eq_of_fold hs hok
    have htruth := Expr.eval_truth hboolean [(config.rootArg, root)]
    rw [heval, Expr.forall_values_single] at htruth
    exact ⟨d, root, s, hread, hroot, heval, false_or_null htruth hne hok⟩

end Filter

/-- Every value is defined, and predicates, quantifiers and counts have values of their kinds. A
filter made of a predicate refuses a document only where the predicate is false or null. -/
theorem Expr.eval_typed :
    (∀ (e : Expr) (bindings : Bindings), ∀ s ∈ (eval bindings e).values, s ≠ .undefined) ∧
    (∀ (e : Expr) (bindings : Bindings), e.isBoolean = true →
      ∀ s ∈ (eval bindings e).values, s.Truth) ∧
    (∀ (q : Quantifier) (f : Expr) (x : String) (b : Expr) (bindings : Bindings),
      ∃ s, eval bindings (.quantifier q f x b) = .single s ∧
        if q = .count then s.Tally else s.Verdict) ∧
    (∀ (f : Expr) (bindings : Bindings), ∃ s, eval bindings (.count f) = .single s ∧ s.Tally) ∧
    ∀ {text : String} {config : Config} {f : Filter}, Filter.ofWire text config = .ok f →
      ∃ e e', predicateOfWire text = .ok e ∧ resolve [config.rootArg] e = .ok e' ∧
        f.lambda.body = e'.fold ∧ ∀ input, (f.filter input).1 = .ok false →
          (∀ bindings, eval bindings e' = .single (.bool false)) ∨
          ∃ d root s, Document.read config.maxDepth input = .ok d ∧ d.root = some root ∧
            eval [(config.rootArg, root)] e' = .single s ∧ (s = .bool false ∨ s = .null) :=
  ⟨eval_ne_undefined, fun _ bindings h => eval_truth h bindings,
    fun q f x b bindings => eval_quantifier_typed bindings q f x b,
    fun f bindings => eval_count_tally bindings f, Filter.refuses_of_ofWire⟩

/-- The member that is compared is not there. -/
theorem Expr.eval_typed_missing :
    let e : Expr := .binary .equal (.field "o.a" none) (.literal (.long 1))
    let input := Text.bytes "\x7b\x7d"
    ∃ f e' d root, Filter.ofWire e.toWire {} = .ok f ∧ (f.filter input).1 = .ok false ∧
      f.lambda.body = e'.fold ∧ Document.read 512 input = .ok d ∧ d.root = some root ∧
      eval [("o", root)] e' = .single .null := by
  intro e input
  let path : Path := [.key "o", .key "a"]
  let e' : Expr := .binary .equal (.field "o.a" (some path)) (.literal (.long 1))
  have hpath : Path.parse "o.a" = .ok path := by rfl
  have hresolve : resolve ["o"] e = .ok e' := by
    simp only [e, resolve, resolveField, hpath]
    rfl
  have hread : predicateOfWire e.toWire = .ok e :=
    (predicateOfWire_toJson rearranges_id e (by simp [e, nodes])).trans rfl
  have hmake : Lambda.make "o" e {} = .ok ⟨"o", e', .empty 512, []⟩ := by
    unfold Lambda.make
    rw [hresolve]
    rfl
  have hf : Filter.ofWire e.toWire {} = .ok ⟨"o", e', .empty 512, []⟩ :=
    Parser.bind_eq_ok.2 ⟨e, Lambda.mapError_eq_ok.2 hread, by
      rw [show Lambda.make _ e _ = _ from hmake]
      rfl⟩
  obtain ⟨e₁, e₂, he₁, he₂, hbody, hrefuses⟩ := eval_typed.2.2.2.2 hf
  obtain rfl := Except.ok.inj (hread.symm.trans he₁)
  obtain rfl := Except.ok.inj (hresolve.symm.trans he₂)
  have hanswer : (Filter.filter input ⟨"o", e', .empty 512, []⟩).1 = .ok false := by rfl
  rcases hrefuses _ hanswer with hfalse | ⟨d, root, s, hd, hroot, hs, -⟩
  · cases hfalse []
  · have hinput : Document.read 512 input = .ok ⟨512, some (.object ⟨0, ⟨0, 2⟩⟩ [])⟩ := by rfl
    obtain rfl := Except.ok.inj (hinput.symm.trans hd)
    obtain rfl := Option.some.inj hroot
    obtain rfl : s = .null := (Result.single.inj hs).symm
    exact ⟨_, e', _, _, hf, hanswer, hbody, hd, rfl, hs⟩

end Quarry
