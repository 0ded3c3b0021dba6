import Quarry.Expr.Apply

/-!
What kinds of values operations give. None leaves its operands without a value, and comparisons,
tests and connectives are true, false or null unless they fail.
-/

namespace Quarry

namespace Scalar

inductive Verdict : Scalar → Prop
  | bool (b : Bool) : Verdict (.bool b)
  | error (message : String) : Verdict (.error message)

inductive Truth : Scalar → Prop
  | bool (b : Bool) : Truth (.bool b)
  | null : Truth .null
  | error (message : String) : Truth (.error message)

inductive Tally : Scalar → Prop
  | long (n : Int64) : Tally (.long n)
  | error (message : String) : Tally (.error message)

/-- A number, a truth value, null or an error: what operations give. -/
inductive Computed : Scalar → Prop
  | double (x : Float) : Computed (.double x)
  | long (n : Int64) : Computed (.long n)
  | bool (b : Bool) : Computed (.bool b)
  | null : Computed .null
  | error (message : String) : Computed (.error message)

variable {a b s : Scalar}

theorem Verdict.truth (h : s.Verdict) : s.Truth := by
  cases h with
  | bool b => exact .bool b
  | error message => exact .error message

theorem Truth.computed (h : s.Truth) : s.Computed := by
  cases h with
  | bool b => exact .bool b
  | null => exact .null
  | error message => exact .error message

theorem Computed.ne_undefined (h : s.Computed) : s ≠ .undefined := by
  cases h <;> simp

theorem Truth.ne_undefined (h : s.Truth) : s ≠ .undefined := h.computed.ne_undefined

theorem Tally.ne_undefined (h : s.Tally) : s ≠ .undefined := by
  cases h <;> simp

theorem Verdict.of_isError (h : s.isError = true) : s.Verdict := by
  cases s with
  | error message => exact .error message
  | _ => cases h

theorem Tally.of_isError (h : s.isError = true) : s.Tally := by
  cases s with
  | error message => exact .error message
  | _ => cases h

theorem isError_of_firstError? {e : Scalar} (h : a.firstError? b = some e) : e.isError = true := by
  unfold firstError? at h
  split at h
  · cases h
    assumption
  · split at h <;> cases h
    assumption

theorem truth_of_firstError? {e : Scalar} (h : a.firstError? b = some e) : e.Truth :=
  (Verdict.of_isError (isError_of_firstError? h)).truth

/-! ### Two operands -/

theorem equals_truth (a b : Scalar) : (a.equals b).Truth := by
  unfold equals
  split
  · rename_i e he
    exact truth_of_firstError? he
  · split
    case h_2 | h_3 => exact .null
    case h_7 =>
      split
      · exact .bool _
      · exact .error _
    all_goals exact .bool _

theorem notEquals_truth (a b : Scalar) : (a.notEquals b).Truth := by
  unfold notEquals
  split
  · exact .bool _
  · exact equals_truth a b

theorem order_truth {symbol : String} {s : Scalar} (h : a.order b symbol = .error s) :
    s.Truth := by
  unfold order at h
  split at h
  · rename_i e he
    cases h
    exact truth_of_firstError? he
  · split at h
    case h_1 | h_2 =>
      cases h
      exact .null
    case h_6 =>
      split at h
      · split at h <;> cases h
        exact .error _
      · cases h
        exact .error _
    all_goals cases h

theorem compareWith_truth (symbol : String) (test : Ordering → Bool) (a b : Scalar) :
    (compareWith symbol test a b).Truth := by
  unfold compareWith
  split
  · exact .bool _
  · rename_i s hs
    exact order_truth hs

theorem textTest_truth (name : String) (test : List Char → List Char → Bool) (a b : Scalar) :
    (textTest name test a b).Truth := by
  unfold textTest
  split
  · rename_i e he
    exact truth_of_firstError? he
  · split
    case h_1 | h_2 => exact .null
    case h_3 => exact .bool _
    case h_4 => exact .error _

theorem arithmetic_computed (symbol : String) (onLongs : Int64 → Int64 → Option Int64)
    (onFloats : Float → Float → Float) (a b : Scalar) :
    (arithmetic symbol onLongs onFloats a b).Computed := by
  unfold arithmetic
  split
  · rename_i e he
    exact (truth_of_firstError? he).computed
  · split
    case h_1 | h_2 => exact .null
    case h_3 =>
      split
      · exact .long _
      · exact .error _
    case h_4 =>
      split
      · exact .double _
      · exact .error _

theorem dividing_computed (symbol : String) {result : Scalar → Scalar → Scalar}
    (h : ∀ a b, (result a b).Computed) (a b : Scalar) : (dividing symbol result a b).Computed := by
  unfold dividing
  split
  · rename_i e he
    exact (truth_of_firstError? he).computed
  · split
    · exact .error _
    · exact h a b

theorem quotient_computed (a b : Scalar) : (quotient a b).Computed := by
  unfold quotient
  split
  · split
    · split
      · exact .long _
      · exact .error _
    · exact .double _
  · exact arithmetic_computed _ _ _ a b

/-! ### Other operations -/

theorem unary_computed {onLong : Int64 → Option Scalar}
    (h : ∀ n s, onLong n = some s → s.Computed) (name : String) (onFloat : Float → Float)
    (s : Scalar) : (unary name onLong onFloat s).Computed := by
  cases s with
  | long n =>
    show ((onLong n).getD _).Computed
    cases hn : onLong n with
    | none => exact .error _
    | some s => exact h n s hn
  | double x => exact .double _
  | null => exact .null
  | _ => exact .error _

theorem length_computed (s : Scalar) : s.length.Computed := by
  cases s with
  | null => exact .null
  | string s => exact .long _
  | _ => exact .error _

theorem not_truth (s : Scalar) : s.not.Truth := by
  cases s with
  | bool b => exact .bool _
  | null => exact .null
  | _ => exact .error _

theorem connectFrom_truth (k : Connective) (decided sawNull : Bool) (ss : List Scalar) :
    (connectFrom k decided sawNull ss).Truth := by
  induction ss generalizing decided sawNull with
  | nil =>
    unfold connectFrom
    split
    · exact .bool _
    · split
      · exact .null
      · exact .bool _
  | cons s ss ih =>
    cases s with
    | bool b => exact ih _ _
    | null => exact ih _ _
    | _ => exact .error _

end Scalar

theorem UnaryOp.apply_computed (op : UnaryOp) (s : Scalar) : (op.apply s).Computed := by
  cases op with
  | length => exact Scalar.length_computed s
  | abs | negate =>
    apply Scalar.unary_computed
    intro n s h
    obtain ⟨m, -, rfl⟩ := Option.map_eq_some_iff.1 h
    exact .long m
  | ceiling | floor =>
    apply Scalar.unary_computed
    intro n s h
    cases h
    exact .long n
  | exp | log | sqrt =>
    apply Scalar.unary_computed
    intro n s h
    cases h
    exact .double _

theorem UnaryOp.apply_ne_undefined (op : UnaryOp) (s : Scalar) : op.apply s ≠ .undefined :=
  (op.apply_computed s).ne_undefined

theorem BinaryOp.apply_truth {op : BinaryOp} (h : (op.isComparison || op.isMethod) = true)
    (a b : Scalar) : (op.apply a b).Truth := by
  cases op with
  | equal => exact Scalar.equals_truth a b
  | notEqual => exact Scalar.notEquals_truth a b
  | lessThan | lessThanOrEqual | greaterThan | greaterThanOrEqual =>
    exact Scalar.compareWith_truth _ _ a b
  | contains => exact Scalar.textTest_truth "Contains" (fun s t => Scalar.hasInfix t s) a b
  | startsWith => exact Scalar.textTest_truth "StartsWith" (fun s t => t.isPrefixOf s) a b
  | endsWith => exact Scalar.textTest_truth "EndsWith" (fun s t => t.isSuffixOf s) a b
  | _ => cases h

theorem BinaryOp.apply_computed (op : BinaryOp) (a b : Scalar) : (op.apply a b).Computed := by
  cases op with
  | add | subtract | multiply => exact Scalar.arithmetic_computed _ _ _ a b
  | divide => exact Scalar.dividing_computed "/" Scalar.quotient_computed a b
  | modulo => exact Scalar.dividing_computed "%" (Scalar.arithmetic_computed _ _ _) a b
  | _ => exact (apply_truth rfl a b).computed

theorem BinaryOp.apply_ne_undefined (op : BinaryOp) (a b : Scalar) :
    op.apply a b ≠ .undefined := (op.apply_computed a b).ne_undefined

end Quarry
