import Quarry.Expr.Eval

/-!
Values and results up to the messages of their errors. Every operation answers an error with an
error, so that its answer to values without messages tells all but the messages.
-/

namespace Quarry

namespace Scalar

/-- The value, an error without its message. -/
def muted : Scalar → Scalar
  | .error _ => .error ""
  | s => s

@[simp] theorem muted_muted (s : Scalar) : s.muted.muted = s.muted := by
  cases s <;> rfl

@[simp] theorem isError_muted (s : Scalar) : s.muted.isError = s.isError := by
  cases s <;> rfl

theorem muted_of_isError {s : Scalar} (h : s.isError = true) : s.muted = .error "" := by
  cases s with
  | error => rfl
  | _ => cases h

theorem muted_of_not_isError {s : Scalar} (h : s.isError = false) : s.muted = s := by
  cases s with
  | error => cases h
  | _ => rfl

theorem muted_apply {f : Scalar → Scalar} (hf : ∀ s, s.isError = true → (f s).isError = true)
    (s : Scalar) : (f s.muted).muted = (f s).muted := by
  by_cases hs : s.isError = true
  · rw [muted_of_isError (hf s hs), muted_of_isError (hf s.muted (by rwa [isError_muted]))]
  · rw [Bool.not_eq_true] at hs
    rw [muted_of_not_isError hs]

theorem muted_apply₂ {f : Scalar → Scalar → Scalar}
    (hf : ∀ a b, (a.isError || b.isError) = true → (f a b).isError = true) (a b : Scalar) :
    (f a.muted b.muted).muted = (f a b).muted := by
  have hleft := muted_apply (f := fun s => f s b.muted) (fun s hs => hf s b.muted (by simp [hs])) a
  have hright := muted_apply (f := f a) (fun s hs => hf a s (by simp [hs])) b
  exact hleft.trans hright

theorem isError_not (s : Scalar) (h : s.isError = true) : s.not.isError = true := by
  cases s with
  | error => rfl
  | _ => cases h

theorem firstError?_isError {a b : Scalar} (h : (a.isError || b.isError) = true) :
    ∃ e, a.firstError? b = some e ∧ e.isError = true := by
  unfold firstError?
  by_cases ha : a.isError = true
  · exact ⟨a, by rw [if_pos ha], ha⟩
  · have hb : b.isError = true := by simpa [ha] using h
    exact ⟨b, by rw [if_neg ha, if_pos hb], hb⟩

/-- A connective meets the values in order, so that it stops at the same place. -/
theorem connectFrom_muted (k : Connective) (decided sawNull : Bool) (ss : List Scalar) :
    (connectFrom k decided sawNull (ss.map muted)).muted =
      (connectFrom k decided sawNull ss).muted := by
  induction ss generalizing decided sawNull with
  | nil => rfl
  | cons s ss ih =>
    cases s with
    | bool b => exact ih (decided || b == k.dominant) sawNull
    | null => exact ih decided true
    | _ => rfl

theorem connect_muted (k : Connective) (ss : List Scalar) :
    (connect k (ss.map muted)).muted = (connect k ss).muted :=
  connectFrom_muted k false false ss

end Scalar

theorem UnaryOp.isError_apply (op : UnaryOp) (s : Scalar) (h : s.isError = true) :
    (op.apply s).isError = true := by
  cases s with
  | error => cases op <;> rfl
  | _ => cases h

/-- The first error among its operands is what an operation gives. -/
theorem BinaryOp.apply_of_firstError? (op : BinaryOp) {a b e : Scalar}
    (h : a.firstError? b = some e) (he : e.isError = true) : op.apply a b = e := by
  have hequals : a.equals b = e := by
    unfold Scalar.equals
    rw [h]
  have hcompare (symbol : String) (test : Ordering → Bool) :
      Scalar.compareWith symbol test a b = e := by
    unfold Scalar.compareWith Scalar.order
    rw [h]
  have harith (symbol : String) (onLongs : Int64 → Int64 → Option Int64)
      (onFloats : Float → Float → Float) :
      Scalar.arithmetic symbol onLongs onFloats a b = e := by
    unfold Scalar.arithmetic
    rw [h]
  have hdivide (symbol : String) (result : Scalar → Scalar → Scalar) :
      Scalar.dividing symbol result a b = e := by
    unfold Scalar.dividing
    rw [h]
  have htest (name : String) (test : List Char → List Char → Bool) :
      Scalar.textTest name test a b = e := by
    unfold Scalar.textTest
    rw [h]
  cases op with
  | add => exact harith _ _ _
  | subtract => exact harith _ _ _
  | multiply => exact harith _ _ _
  | divide => exact hdivide _ _
  | modulo => exact hdivide _ _
  | equal => exact hequals
  | notEqual =>
    show a.notEquals b = e
    unfold Scalar.notEquals
    rw [hequals]
    cases e with
    | error => rfl
    | _ => cases he
  | lessThan => exact hcompare _ _
  | lessThanOrEqual => exact hcompare _ _
  | greaterThan => exact hcompare _ _
  | greaterThanOrEqual => exact hcompare _ _
  | contains => exact htest "Contains" fun s t => Scalar.hasInfix t s
  | startsWith => exact htest "StartsWith" fun s t => t.isPrefixOf s
  | endsWith => exact htest "EndsWith" fun s t => t.isSuffixOf s

theorem BinaryOp.isError_apply (op : BinaryOp) (a b : Scalar)
    (h : (a.isError || b.isError) = true) : (op.apply a b).isError = true := by
  obtain ⟨e, hfirst, he⟩ := Scalar.firstError?_isError h
  rw [op.apply_of_firstError? hfirst he]
  exact he

namespace Expr

open Scalar (muted)

/-! ### Results -/

def Result.muted : Result → Result
  | .single s => .single s.muted
  | .many ss => .many (ss.map Scalar.muted)

@[simp] theorem Result.muted_single (s : Scalar) : (single s).muted = .single s.muted := rfl

theorem muted_toScalar (r : Result) : r.muted.toScalar.muted = r.toScalar.muted := by
  cases r with
  | single s => exact s.muted_muted
  | many => rfl

theorem muted_map (op : UnaryOp) (r : Result) :
    (r.muted.map op.apply).muted = (r.map op.apply).muted := by
  have hop := Scalar.muted_apply op.isError_apply
  cases r with
  | single s => exact congrArg Result.single (hop s)
  | many ss =>
    simp only [Result.muted, Result.map, List.map_map, Result.many.injEq]
    exact List.map_congr_left fun s _ => hop s

theorem muted_zip (op : BinaryOp) (r t : Result) :
    (r.muted.zip op.apply t.muted).muted = (r.zip op.apply t).muted := by
  have hop := Scalar.muted_apply₂ op.isError_apply
  cases r with
  | single a =>
    cases t with
    | single b => exact congrArg Result.single (hop a b)
    | many bs =>
      simp only [Result.muted, Result.zip, List.map_map, Result.many.injEq]
      exact List.map_congr_left fun b _ => hop a b
  | many as =>
    cases t with
    | single b =>
      simp only [Result.muted, Result.zip, List.map_map, Result.many.injEq]
      exact List.map_congr_left fun a _ => hop a b
    | many bs =>
      simp only [Result.muted, Result.zip, List.length_map]
      by_cases hlen : as.length = bs.length
      · rw [if_pos hlen, if_pos hlen]
        simp only [List.map_zipWith, List.zipWith_map, hop]
      · rw [if_neg hlen, if_neg hlen]

@[simp] theorem muted_annotate (e : Expr) (operandError : Bool) (r : Result) :
    (annotate e operandError r).muted = r.muted := by
  unfold annotate
  split
  · rfl
  · cases r with
    | single s => cases s <;> rfl
    | many ss =>
      simp only [Result.map, Result.muted, List.map_map, Result.many.injEq]
      apply List.map_congr_left
      intro s _
      cases s <;> rfl

/-! ### Quantifiers and aggregates -/

theorem quantified_muted (range : String) (q : Quantifier) (ss : List Scalar) :
    (quantified range q (ss.map muted)).muted = (quantified range q ss).muted := by
  have hcount (n : Nat) :
      (∃ m, countTrue range q n (ss.map muted) = .ok m ∧ countTrue range q n ss = .ok m) ∨
      ∃ e e', countTrue range q n (ss.map muted) = .error e ∧ countTrue range q n ss = .error e' ∧
        e.muted = e'.muted := by
    induction ss generalizing n with
    | nil => exact .inl ⟨n, rfl, rfl⟩
    | cons s ss ih =>
      cases s with
      | bool b =>
        cases b with
        | true => exact ih (n + 1)
        | false => exact ih n
      | null => exact ih n
      | _ => exact .inr ⟨_, _, rfl, rfl, rfl⟩
  unfold quantified
  rw [List.length_map]
  rcases hcount 0 with ⟨m, hm, hm'⟩ | ⟨e, e', he, he', heq⟩
  · rw [hm, hm']
  · rw [he, he']
    exact heq

theorem map_muted_of_find? {ss : List Scalar} (h : ss.find? Scalar.isError = none) :
    ss.map muted = ss := by
  rw [List.find?_eq_none] at h
  calc ss.map muted = ss.map id :=
        List.map_congr_left fun s hs => Scalar.muted_of_not_isError (by simpa using h s hs)
    _ = ss := List.map_id ss

theorem aggregateAll_muted (op : AggregateOp) (range : String) (ss : List Scalar) :
    (aggregateAll op range (ss.map muted)).muted = (aggregateAll op range ss).muted := by
  have hcomp : Scalar.isError ∘ muted = Scalar.isError := funext Scalar.isError_muted
  unfold aggregateAll
  rw [List.find?_map, hcomp]
  cases hfind : ss.find? Scalar.isError with
  | none =>
    rw [map_muted_of_find? hfind]
    rfl
  | some e => exact e.muted_muted

/-! ### The range that messages name -/

theorem mapError_muted_cases {α : Type} {x x' : Except Scalar α}
    (h : x'.mapError muted = x.mapError muted) :
    (∃ a, x' = .ok a ∧ x = .ok a) ∨
      ∃ s s', x' = .error s' ∧ x = .error s ∧ s'.muted = s.muted := by
  cases x' with
  | error s' =>
    cases x with
    | error s => exact .inr ⟨s, s', rfl, rfl, Except.error.inj h⟩
    | ok a => cases h
  | ok a' =>
    cases x with
    | error s => cases h
    | ok a =>
      cases h
      exact .inl ⟨_, rfl, rfl⟩

theorem mapError_countTrue (range range' : String) (q q' : Quantifier) (n : Nat)
    (ss : List Scalar) :
    (countTrue range' q' n ss).mapError muted = (countTrue range q n ss).mapError muted := by
  induction ss generalizing n with
  | nil => rfl
  | cons s ss ih =>
    cases s with
    | bool b =>
      cases b with
      | true => exact ih (n + 1)
      | false => exact ih n
    | null => exact ih n
    | _ => rfl

theorem quantified_range (range range' : String) (q : Quantifier) (ss : List Scalar) :
    (quantified range' q ss).muted = (quantified range q ss).muted := by
  unfold quantified
  rcases mapError_muted_cases (mapError_countTrue range range' q q 0 ss) with
    ⟨n, hn', hn⟩ | ⟨s, s', hs', hs, heq⟩
  · rw [hn', hn]
  · rw [hs', hs]
    exact heq

theorem sumLongs_range (range range' : String) (sum : Int64) (ns : List Int64) :
    (sumLongs range' sum ns).muted = (sumLongs range sum ns).muted := by
  induction ns generalizing sum with
  | nil => rfl
  | cons n ns ih =>
    unfold sumLongs
    split
    · exact ih _
    · rfl

theorem total_range (range range' : String) (ss : List Scalar) :
    (total range' ss).mapError muted = (total range ss).mapError muted := by
  unfold total
  generalize some Numeral.Fixed.zero = sum
  induction ss generalizing sum with
  | nil => rfl
  | cons s ss ih =>
    unfold decimalTotal
    split
    · rfl
    · exact ih _

theorem sumOf_range (range range' : String) (ss : List Scalar) :
    (sumOf range' ss).muted = (sumOf range ss).muted := by
  unfold sumOf
  split
  · exact sumLongs_range range range' 0 _
  · rcases mapError_muted_cases (total_range range range' ss) with
      ⟨t, ht', ht⟩ | ⟨s, s', hs', hs, heq⟩
    · rw [ht', ht]
    · rw [hs', hs]
      exact heq

theorem averageOf_range (range range' : String) (ss : List Scalar) :
    (averageOf range' ss).muted = (averageOf range ss).muted := by
  unfold averageOf
  split
  · rfl
  · rcases mapError_muted_cases (total_range range range' ss) with
      ⟨t, ht', ht⟩ | ⟨s, s', hs', hs, heq⟩
    · rw [ht', ht]
    · rw [hs', hs]
      exact heq

theorem aggregateAll_range (op : AggregateOp) (range range' : String) (ss : List Scalar) :
    (aggregateAll op range' ss).muted = (aggregateAll op range ss).muted := by
  unfold aggregateAll
  split
  · rfl
  · cases op with
    | min | max => rfl
    | sum => exact sumOf_range range range' _
    | average => exact averageOf_range range range' _

end Expr

end Quarry
