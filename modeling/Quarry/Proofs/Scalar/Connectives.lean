import Quarry.Proofs.Expr.Failing
import Quarry.Proofs.Scalar.Kinds

/-!
Connectives as an algebra of three truth values, and of errors, the first of which ends the pass.
A connective among the operands of the same connective gives way to its own operands, negation turns
one connective into the other, and the order of truth values does not matter.
-/

namespace Quarry

def Connective.dual : Connective → Connective
  | .and => .or
  | .or => .and

namespace Scalar

/-! ### Connectives among operands -/

-- Once the dominant value was met, nulls no longer matter.
theorem connectFrom_decided (k : Connective) (sawNull sawNull' : Bool) (ss : List Scalar) :
    connectFrom k true sawNull ss = connectFrom k true sawNull' ss := by
  induction ss generalizing sawNull sawNull' with
  | nil => rfl
  | cons s ss ih =>
    cases s with
    | bool b => exact ih sawNull sawNull'
    | _ => rfl

/-- A pass that meets the value of another goes on as if it had met the operands of the other. -/
theorem connectFrom_connectFrom (k : Connective) (decided sawNull decided' sawNull' : Bool)
    (xs ys : List Scalar) :
    connectFrom k decided sawNull (connectFrom k decided' sawNull' xs :: ys) =
      connectFrom k (decided || decided') (sawNull || sawNull') (xs ++ ys) := by
  -- Without a refusal or an error, the pass over `xs` ends with the dominant value, with null, or
  -- with a value that changes nothing.
  induction xs generalizing decided' sawNull' with
  | nil =>
    cases decided' with
    | true =>
      have hfirst : connectFrom k decided sawNull (.bool k.dominant :: ys) =
          connectFrom k true sawNull ys := by
        rw [connectFrom, beq_self_eq_true, Bool.or_true]
      rw [Bool.or_true]
      exact hfirst.trans (connectFrom_decided k sawNull (sawNull || sawNull') ys)
    | false =>
      cases sawNull' with
      | true => simp [connectFrom]
      | false => cases k <;> simp [connectFrom, Connective.dominant]
  | cons x xs ih =>
    cases x with
    | bool b =>
      rw [connectFrom, ih, ← Bool.or_assoc]
      rfl
    | null =>
      rw [connectFrom, ih, Bool.or_true]
      rw [List.cons_append, connectFrom]
    | _ => rfl

theorem connectFrom_append_congr {k : Connective} {xs ys : List Scalar}
    (h : ∀ decided sawNull, connectFrom k decided sawNull xs = connectFrom k decided sawNull ys)
    (decided sawNull : Bool) (before : List Scalar) :
    connectFrom k decided sawNull (before ++ xs) =
      connectFrom k decided sawNull (before ++ ys) := by
  induction before generalizing decided sawNull with
  | nil => exact h decided sawNull
  | cons s before ih =>
    cases s with
    | bool b => exact ih (decided || b == k.dominant) sawNull
    | null => exact ih decided true
    | _ => rfl

theorem connect_flatten (k : Connective) (before xs after : List Scalar) :
    connect k (before ++ connect k xs :: after) = connect k (before ++ xs ++ after) := by
  rw [List.append_assoc]
  apply connectFrom_append_congr
  intro decided sawNull
  have h := connectFrom_connectFrom k decided sawNull false false xs after
  rwa [Bool.or_false, Bool.or_false] at h

/-! ### Negation -/

theorem not_connectFrom (k : Connective) (decided sawNull : Bool) {ss : List Scalar}
    (h : ∀ s ∈ ss, s.Truth) :
    (connectFrom k decided sawNull ss).not = connectFrom k.dual decided sawNull (ss.map not) := by
  induction ss generalizing decided sawNull with
  | nil => cases k <;> cases decided <;> cases sawNull <;> rfl
  | cons s ss ih =>
    obtain ⟨hs, hss⟩ := List.forall_mem_cons.1 h
    cases hs with
    | bool b =>
      have hmet : ((!b) == k.dual.dominant) = (b == k.dominant) := by cases k <;> cases b <;> rfl
      rw [List.map_cons, not, connectFrom, connectFrom, hmet]
      exact ih _ _ hss
    | null => exact ih _ _ hss
    | error message => rfl

/-! ### Order -/

theorem connectFrom_cons {s : Scalar} (h : s.joins = true) (k : Connective)
    (decided sawNull : Bool) (ss : List Scalar) :
    connectFrom k decided sawNull (s :: ss) =
      connectFrom k (decided || s.toBool? == some k.dominant) (sawNull || s.isNull) ss := by
  cases s with
  | bool b =>
    rw [show isNull (.bool b) = false from rfl, Bool.or_false]
    rfl
  | null =>
    rw [show toBool? .null = none from rfl, show isNull .null = true from rfl, Bool.or_true]
    exact congrArg (connectFrom k · true ss) (Bool.or_false decided).symm
  | _ => cases h

theorem connectFrom_perm (k : Connective) {xs ys : List Scalar} (hperm : xs.Perm ys)
    (h : ∀ s ∈ xs, s.joins = true) (decided sawNull : Bool) :
    connectFrom k decided sawNull xs = connectFrom k decided sawNull ys := by
  induction hperm generalizing decided sawNull with
  | nil => rfl
  | cons s _ ih =>
    obtain ⟨hs, hss⟩ := List.forall_mem_cons.1 h
    rw [connectFrom_cons hs, connectFrom_cons hs]
    exact ih hss _ _
  | swap s t ss =>
    have ht := h t List.mem_cons_self
    have hs := h s (List.mem_cons_of_mem _ List.mem_cons_self)
    simp only [connectFrom_cons hs, connectFrom_cons ht, Bool.or_right_comm]
  | trans hxs _ ih ih' =>
    rw [ih h]
    exact ih' (fun s hs => h s (hxs.mem_iff.2 hs)) decided sawNull

end Scalar

/-! ### Expressions -/

namespace Expr

variable (bindings : Bindings) (k : Connective)

theorem muted_eval_connect_eq (es : List Expr) :
    (eval bindings (.connect k es)).muted =
      .single (Scalar.connect k (evalAll bindings es)).muted := by
  rw [eval, muted_annotate, Result.muted_single]

/-- Only which node an error names depends on how the operands are grouped. -/
theorem muted_eval_connect_flatten (before es after : List Expr) :
    (eval bindings (.connect k (before ++ .connect k es :: after))).muted =
      (eval bindings (.connect k (before ++ es ++ after))).muted := by
  have hinner : (eval bindings (.connect k es)).toScalar.muted =
      (Scalar.connect k (evalAll bindings es)).muted := by
    rw [← muted_toScalar, muted_eval_connect_eq]
    exact Scalar.muted_muted _
  rw [muted_eval_connect_eq, muted_eval_connect_eq, ← Scalar.connect_muted]
  simp only [evalAll_eq_map, List.map_append, List.map_cons, hinner]
  simp only [← List.map_cons, ← List.map_append, Scalar.connect_muted, Scalar.connect_flatten]

end Expr

open Scalar Expr

/-- A connective among the operands of the same connective gives way to its operands, errors
included; in an expression only the node that an error names changes. A negated connective of truth
values and errors is the other connective of the negated operands, and truth values may come in any
order. -/
theorem connective_laws :
    (∀ before xs after : List Scalar,
      and (before ++ and xs :: after) = and (before ++ xs ++ after) ∧
      or (before ++ or xs :: after) = or (before ++ xs ++ after)) ∧
    (∀ (bindings : Bindings) (k : Connective) (before es after : List Expr),
      (eval bindings (.connect k (before ++ .connect k es :: after))).muted =
        (eval bindings (.connect k (before ++ es ++ after))).muted) ∧
    (∀ xs : List Scalar, (∀ s ∈ xs, s.Truth) →
      (and xs).not = or (xs.map not) ∧ (or xs).not = and (xs.map not)) ∧
    ∀ xs ys : List Scalar, xs.Perm ys → (∀ s ∈ xs, s.joins = true) →
      and xs = and ys ∧ or xs = or ys := by
  refine ⟨?_, muted_eval_connect_flatten, ?_, ?_⟩
  · intro before xs after
    exact ⟨connect_flatten .and before xs after, connect_flatten .or before xs after⟩
  · intro xs h
    exact ⟨not_connectFrom .and false false h, not_connectFrom .or false false h⟩
  · intro xs ys hperm h
    exact ⟨connectFrom_perm .and hperm h false false, connectFrom_perm .or hperm h false false⟩

/-- The first of two errors is the result on both sides. -/
theorem connective_laws_failing :
    let xs : List Scalar := [.null, .bool false, .error "a", .bool true, .error "b"]
    let ys : List Scalar := [.null, .bool true, .null]
    (∀ s ∈ xs, s.Truth) ∧ (and xs).not = or (xs.map not) ∧ (and xs).not = .error "a" ∧
      (∀ s ∈ ys, s.joins = true) ∧ and ys = and [.bool true, .null, .null] ∧ and ys = .null := by
  intro xs ys
  have hxs : ∀ s ∈ xs, s.Truth := by
    simp only [xs, List.forall_mem_cons]
    exact ⟨.null, .bool _, .error _, .bool _, .error _, by simp⟩
  have hys : ∀ s ∈ ys, s.joins = true := by decide
  exact ⟨hxs, (connective_laws.2.2.1 xs hxs).1, rfl, hys,
    (connective_laws.2.2.2 ys _ (.swap _ _ _) hys).1, rfl⟩

end Quarry
