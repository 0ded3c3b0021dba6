import Quarry.Proofs.Expr.Muted

/-!
What becomes of errors among the values of operands. They pass through every operation unchanged,
the first of several; but a connective also stops at an operand before it that is no truth value.
-/

namespace Quarry

namespace Scalar

/-- Whether a connective goes on at a value. -/
def joins : Scalar → Bool
  | .bool _ => true
  | .null => true
  | _ => false

def refusal (k : Connective) (s : Scalar) : Scalar :=
  .error s!"{k.symbol} expects bool operands, got {s.described}"

theorem connectFrom_joins {s : Scalar} (h : s.joins = true) (k : Connective)
    (decided sawNull : Bool) : ∃ decided' sawNull', ∀ ss,
      connectFrom k decided sawNull (s :: ss) = connectFrom k decided' sawNull' ss := by
  cases s with
  | bool b => exact ⟨_, _, fun _ => rfl⟩
  | null => exact ⟨_, _, fun _ => rfl⟩
  | _ => cases h

theorem connectFrom_refusal {s : Scalar} (h : s.joins = false) (hs : s.isError = false)
    (k : Connective) (decided sawNull : Bool) (ss : List Scalar) :
    connectFrom k decided sawNull (s :: ss) = refusal k s := by
  cases s with
  | bool | null => cases h
  | error => cases hs
  | _ => rfl

/-- The first operand that is no truth value ends a connective. -/
theorem connectFrom_failing {before : List Scalar} {s : Scalar}
    (hbefore : ∀ t ∈ before, t.isError = false) (hs : s.isError = true) (k : Connective)
    (decided sawNull : Bool) (after : List Scalar) :
    connectFrom k decided sawNull (before ++ s :: after) =
      (before.find? fun t => !t.joins).elim s (refusal k) := by
  induction before generalizing decided sawNull with
  | nil =>
    cases s with
    | error => rfl
    | _ => cases hs
  | cons t before ih =>
    obtain ⟨ht, hbefore⟩ := List.forall_mem_cons.1 hbefore
    rw [List.cons_append, List.find?_cons]
    by_cases hjoins : t.joins = true
    · obtain ⟨decided', sawNull', hstep⟩ := connectFrom_joins hjoins k decided sawNull
      rw [hstep, ih hbefore, hjoins]
      rfl
    · rw [Bool.not_eq_true] at hjoins
      rw [connectFrom_refusal hjoins ht, hjoins]
      rfl

theorem not_of_isError {s : Scalar} (h : s.isError = true) : s.not = s := by
  cases s with
  | error => rfl
  | _ => cases h

end Scalar

theorem UnaryOp.apply_of_isError (op : UnaryOp) {s : Scalar} (h : s.isError = true) :
    op.apply s = s := by
  cases s with
  | error => cases op <;> rfl
  | _ => cases h

namespace Expr

def operands : Expr → List Expr
  | .unary _ e => [e]
  | .binary _ l r => [l, r]
  | .connect _ es => es
  | .not e => [e]
  | _ => []

variable {bindings : Bindings} {e : Expr} {before after : List Scalar} {s : Scalar}

theorem annotate_true (e : Expr) (r : Result) : annotate e true r = r := if_pos rfl

theorem value_of_split (h : [eval bindings e] = (before ++ s :: after).map .single) :
    eval bindings e = .single s := by
  cases before with
  | nil => exact (List.cons.inj h).1
  | cons t before => simp at h

theorem values_of_split {l r : Expr}
    (h : [eval bindings l, eval bindings r] = (before ++ s :: after).map .single)
    (hbefore : ∀ t ∈ before, t.isError = false) (hs : s.isError = true) :
    ∃ a b, eval bindings l = .single a ∧ eval bindings r = .single b ∧
      a.firstError? b = some s := by
  match before, after with
  | [], [b] =>
    obtain ⟨hl, h⟩ := List.cons.inj h
    exact ⟨s, b, hl, (List.cons.inj h).1, Scalar.firstError?_of_isError hs b⟩
  | [a], [] =>
    obtain ⟨hl, h⟩ := List.cons.inj h
    have ha : a.isError = false := hbefore a List.mem_cons_self
    exact ⟨a, s, hl, (List.cons.inj h).1, by simp [Scalar.firstError?, ha, hs]⟩
  | [], [] | [], _ :: _ :: _ | [_], _ :: _ | _ :: _ :: _, _ => simp at h

theorem eval_unary_failing {op : UnaryOp} (he : eval bindings e = .single s)
    (hs : s.isError = true) : eval bindings (.unary op e) = .single s := by
  rw [eval, he]
  show annotate _ (s.isError || false) (.single (op.apply s)) = _
  rw [hs, Bool.true_or, annotate_true, op.apply_of_isError hs]

theorem eval_binary_failing {op : BinaryOp} {l r : Expr} {a b : Scalar}
    (hl : eval bindings l = .single a) (hr : eval bindings r = .single b)
    (hfirst : a.firstError? b = some s) (hs : s.isError = true) :
    eval bindings (.binary op l r) = .single s := by
  have hflag : ((Result.single a).hasError || (Result.single b).hasError) = true := by
    unfold Scalar.firstError? at hfirst
    split at hfirst
    · rename_i ha
      simp [Result.hasError, Result.values, ha]
    · split at hfirst <;> cases hfirst
      simp [Result.hasError, Result.values, hs]
  rw [eval, hl, hr]
  show annotate _ ((Result.single a).hasError || (Result.single b).hasError)
    (.single (op.apply a b)) = _
  rw [hflag, annotate_true, op.apply_of_firstError? hfirst hs]

theorem eval_not_failing (he : eval bindings e = .single s) (hs : s.isError = true) :
    eval bindings (.not e) = .single s := by
  rw [eval, he]
  show annotate _ s.isError (.single s.not) = _
  rw [hs, annotate_true, Scalar.not_of_isError hs]

theorem eval_connect_failing {k : Connective} {es : List Expr}
    (hes : es.map (eval bindings) = (before ++ s :: after).map .single)
    (hbefore : ∀ t ∈ before, t.isError = false) (hs : s.isError = true) :
    eval bindings (.connect k es) =
      .single ((before.find? fun t => !t.joins).elim s (Scalar.refusal k)) := by
  have hall : evalAll bindings es = before ++ s :: after := by
    calc evalAll bindings es
        = (es.map (eval bindings)).map Result.toScalar := by rw [evalAll_eq_map, List.map_map]; rfl
      _ = (before ++ s :: after).map id := by rw [hes, List.map_map]; rfl
      _ = before ++ s :: after := List.map_id _
  have hflag : (before ++ s :: after).any Scalar.isError = true := by
    simp [hs]
  rw [eval, hall]
  show annotate _ ((before ++ s :: after).any Scalar.isError) _ = _
  rw [hflag, annotate_true, Scalar.connect, Scalar.connectFrom_failing hbefore hs]

/-- The first error among the values of the operands is the value of the node, without any addition.
Only a connective may be ended before it, by an operand that is no truth value. -/
theorem eval_failing
    (hvalues : e.operands.map (eval bindings) = (before ++ s :: after).map .single)
    (hbefore : ∀ t ∈ before, t.isError = false) (hs : s.isError = true) :
    eval bindings e = .single
      (match e with
        | .connect k _ => (before.find? fun t => !t.joins).elim s (Scalar.refusal k)
        | _ => s) := by
  cases e with
  | unary op e => exact eval_unary_failing (value_of_split hvalues) hs
  | binary op l r =>
    obtain ⟨a, b, hl, hr, hfirst⟩ := values_of_split hvalues hbefore hs
    exact eval_binary_failing hl hr hfirst hs
  | connect k es => exact eval_connect_failing hvalues hbefore hs
  | not e => exact eval_not_failing (value_of_split hvalues) hs
  | _ => simp [operands] at hvalues

/-- The second error is not looked at, and null is a truth value. -/
theorem eval_failing_connected :
    let failing (i : Int64) : Expr := .not (.literal (.long i))
    let e : Expr := .connect .or [.literal .null, failing 1, .literal (.long 2), failing 3]
    let s : Scalar := .error "! expects a bool, got 1 (long) in !1"
    e.operands.map (eval []) = [.null, s, .long 2,
        .error "! expects a bool, got 3 (long) in !3"].map .single ∧
      eval [] e = .single s := by
  intro failing e s
  have hvalues : e.operands.map (eval []) = ([Scalar.null] ++ s :: [.long 2,
      .error "! expects a bool, got 3 (long) in !3"]).map .single := by rfl
  exact ⟨hvalues, eval_failing hvalues (by decide) rfl⟩

/-- A number ends the connective before the error is met, and the message does not name the node. -/
theorem eval_and_refusal :
    let e : Expr := .connect .and [.literal (.long 1), .not (.literal (.long 1))]
    let s : Scalar := .error "! expects a bool, got 1 (long) in !1"
    e.operands.map (eval []) = [.long 1, s].map .single ∧
      eval [] e = .single (.error "&& expects bool operands, got 1 (long)") ∧
      eval [] e ≠ .single s := by
  intro e s
  have heval : eval [] e = .single (.error "&& expects bool operands, got 1 (long)") := by rfl
  refine ⟨by rfl, heval, ?_⟩
  rw [heval]
  simp [s]

end Expr

end Quarry
