import Mathlib
import Quarry.Proofs.Expr.Muted
import Quarry.Proofs.Scalar.Integers

/-!
Sums of integers. A sum runs through the elements in their order and is an overflow as soon as its
running total leaves 64 bits; if none of the running totals does, it is the sum of the integers.
-/

namespace Quarry

namespace Scalar

def toLong? : Scalar → Option Int64
  | .long n => some n
  | _ => none

end Scalar

namespace Expr

open Scalar

/-! ### Running totals -/

/-- The totals that a sum goes through from a first one on. -/
def totals (start : Int) (zs : List Int) : List Int := zs.scanl (· + ·) start

theorem totals_cons (start z : Int) (zs : List Int) :
    totals start (z :: zs) = start :: totals (start + z) zs := List.scanl_cons

theorem sum_mem_totals (start : Int) (zs : List Int) : start + zs.sum ∈ totals start zs := by
  induction zs generalizing start with
  | nil => simp [totals]
  | cons z zs ih =>
    rw [totals_cons, List.sum_cons, ← Int.add_assoc]
    exact List.mem_cons_of_mem _ (ih (start + z))

/-- Without a change of sign no total lies beyond the last. -/
theorem forall_totals_fitsLong {start : Int} {zs : List Int}
    (hsign : (∀ z ∈ zs, 0 ≤ z) ∨ ∀ z ∈ zs, z ≤ 0) (hstart : FitsLong start)
    (hsum : FitsLong (start + zs.sum)) : ∀ t ∈ totals start zs, FitsLong t := by
  induction zs generalizing start with
  | nil => simpa [totals] using hstart
  | cons z zs ih =>
    rw [totals_cons, List.forall_mem_cons]
    rw [List.sum_cons, ← Int.add_assoc] at hsum
    refine ⟨hstart, ih ?_ ?_ hsum⟩
    · exact hsign.imp (fun h => (List.forall_mem_cons.1 h).2) fun h => (List.forall_mem_cons.1 h).2
    · unfold FitsLong at *
      rcases hsign with h | h
      · obtain ⟨hz, hzs⟩ := List.forall_mem_cons.1 h
        have hrest := List.sum_nonneg hzs
        omega
      · obtain ⟨hz, hzs⟩ := List.forall_mem_cons.1 h
        have hrest : zs.sum ≤ 0 := by simpa using List.sum_le_card_nsmul zs 0 hzs
        omega

/-! ### The loop -/

variable {ns : List Int64}

theorem sumLongs_of_fits (range : String) (sum : Int64)
    (h : ∀ t ∈ totals sum.toInt (ns.map Int64.toInt), FitsLong t) :
    ∃ m, sumLongs range sum ns = .long m ∧ m.toInt = sum.toInt + (ns.map Int64.toInt).sum := by
  induction ns generalizing sum with
  | nil => exact ⟨sum, rfl, by simp⟩
  | cons n ns ih =>
    rw [List.map_cons, totals_cons, List.forall_mem_cons] at h
    have hnext : FitsLong (sum.toInt + n.toInt) := by
      apply h.2
      cases ns <;> simp [totals]
    obtain ⟨next, hnext, hint⟩ := exists_long? hnext
    rw [← hint] at h
    obtain ⟨m, hm, htotal⟩ := ih next h.2
    refine ⟨m, ?_, ?_⟩
    · rw [sumLongs, addLong?, hnext]
      exact hm
    · rw [htotal, hint, List.map_cons, List.sum_cons, Int.add_assoc]

theorem sumLongs_of_exceeds (range : String) (sum : Int64)
    (h : ∃ t ∈ totals sum.toInt (ns.map Int64.toInt), ¬ FitsLong t) :
    sumLongs range sum ns = .error s!"integer overflow in {range}.Sum" := by
  induction ns generalizing sum with
  | nil =>
    obtain ⟨t, ht, hfits⟩ := h
    obtain rfl : t = sum.toInt := by simpa [totals] using ht
    exact absurd (fitsLong_toInt sum) hfits
  | cons n ns ih =>
    obtain ⟨t, ht, hfits⟩ := h
    rw [List.map_cons, totals_cons, List.mem_cons] at ht
    have ht := ht.resolve_left (by rintro rfl; exact hfits (fitsLong_toInt sum))
    rw [sumLongs, addLong?]
    by_cases hnext : FitsLong (sum.toInt + n.toInt)
    · obtain ⟨next, hnext, hint⟩ := exists_long? hnext
      rw [← hint] at ht
      rw [hnext]
      exact ih next ⟨t, ht, hfits⟩
    · rw [long?_eq_none hnext]

/-! ### Aggregates -/

def integers (values : List Scalar) : List Int := (values.filterMap toLong?).map Int64.toInt

def present (values : List Scalar) : List Scalar := values.filter fun s => !s.isNull

theorem present_eq {values : List Scalar} (h : ∀ s ∈ values, s = .null ∨ ∃ n, s = .long n) :
    present values = (values.filterMap toLong?).map .long := by
  induction values with
  | nil => rfl
  | cons s values ih =>
    obtain ⟨hs, hvalues⟩ := List.forall_mem_cons.1 h
    rcases hs with rfl | ⟨n, rfl⟩
    · exact ih hvalues
    · exact congrArg (.long n :: ·) (ih hvalues)

theorem longs?_long (ns : List Int64) : longs? (ns.map .long) = some ns := by
  induction ns with
  | nil => rfl
  | cons n ns ih =>
    rw [longs?] at ih ⊢
    rw [List.map_cons, List.mapM_cons, ih]
    rfl

theorem find?_isError_eq_none {values : List Scalar}
    (h : ∀ s ∈ values, s = .null ∨ ∃ n, s = .long n) : values.find? isError = none := by
  rw [List.find?_eq_none]
  intro s hs
  rcases h s hs with rfl | ⟨n, rfl⟩ <;> simp [isError]

theorem aggregateAll_sum (range : String) {values : List Scalar}
    (h : ∀ s ∈ values, s = .null ∨ ∃ n, s = .long n) :
    aggregateAll .sum range values = sumLongs range 0 (values.filterMap toLong?) := by
  rw [aggregateAll, find?_isError_eq_none h]
  show sumOf range (present values) = _
  rw [sumOf, present_eq h, longs?_long]

variable {bindings : Bindings} {f e : Expr} {x : String} {nodes : List Node}

/-- The values of an expression for the elements of a range. -/
def elementValues (bindings : Bindings) (x : String) (e : Expr) (nodes : List Node) : List Scalar :=
  nodes.map fun n => (eval ((x, n) :: bindings) e).toScalar

theorem eval_aggregate (op : AggregateOp) (hnodes : elements bindings f = .ok nodes) :
    eval bindings (.aggregate op f x e) =
      .single (aggregateAll op f.text (elementValues bindings x e nodes)) := by
  rw [eval, hnodes]
  rfl

theorem eval_aggregate_sum (hnodes : elements bindings f = .ok nodes)
    (hvalues : ∀ s ∈ elementValues bindings x e nodes, s = .null ∨ ∃ n, s = .long n) :
    eval bindings (.aggregate .sum f x e) =
      .single (sumLongs f.text 0 ((elementValues bindings x e nodes).filterMap toLong?)) := by
  rw [eval_aggregate .sum hnodes, aggregateAll_sum f.text hvalues]

theorem eval_sum_of_fits (hnodes : elements bindings f = .ok nodes)
    (hvalues : ∀ s ∈ elementValues bindings x e nodes, s = .null ∨ ∃ n, s = .long n)
    (h : ∀ t ∈ totals 0 (integers (elementValues bindings x e nodes)), FitsLong t) :
    ∃ m, eval bindings (.aggregate .sum f x e) = .single (.long m) ∧
      m.toInt = (integers (elementValues bindings x e nodes)).sum := by
  obtain ⟨m, hm, hint⟩ := sumLongs_of_fits f.text 0 h
  refine ⟨m, ?_, hint.trans (Int.zero_add _)⟩
  rw [eval_aggregate_sum hnodes hvalues, hm]

theorem eval_sum_of_exceeds (hnodes : elements bindings f = .ok nodes)
    (hvalues : ∀ s ∈ elementValues bindings x e nodes, s = .null ∨ ∃ n, s = .long n)
    (h : ∃ t ∈ totals 0 (integers (elementValues bindings x e nodes)), ¬ FitsLong t) :
    eval bindings (.aggregate .sum f x e) =
      .single (.error s!"integer overflow in {f.text}.Sum") := by
  rw [eval_aggregate_sum hnodes hvalues, sumLongs_of_exceeds f.text 0 h]

theorem toInt_of_eval_sum {m : Int64} (hnodes : elements bindings f = .ok nodes)
    (hvalues : ∀ s ∈ elementValues bindings x e nodes, s = .null ∨ ∃ n, s = .long n)
    (h : eval bindings (.aggregate .sum f x e) = .single (.long m)) :
    m.toInt = (integers (elementValues bindings x e nodes)).sum := by
  by_cases hfits : ∀ t ∈ totals 0 (integers (elementValues bindings x e nodes)), FitsLong t
  · obtain ⟨m', hm', hint⟩ := eval_sum_of_fits hnodes hvalues hfits
    rw [h] at hm'
    cases hm'
    exact hint
  · have hover := eval_sum_of_exceeds hnodes hvalues (by simpa using hfits)
    rw [h] at hover
    cases hover

/-- A sum over integers and nulls is their sum if no running total leaves 64 bits, and an overflow
otherwise. So it is an overflow whenever the sum itself does not fit, it is exact whenever the sum
fits and the integers do not change their sign, and in whatever order the same values stand, the
sums of them that are no overflow are equal. -/
theorem eval_sum (hnodes : elements bindings f = .ok nodes)
    (hvalues : ∀ s ∈ elementValues bindings x e nodes, s = .null ∨ ∃ n, s = .long n) :
    let values := elementValues bindings x e nodes
    let zs := integers values
    let result := eval bindings (.aggregate .sum f x e)
    let overflow : Result := .single (.error s!"integer overflow in {f.text}.Sum")
    ((∀ t ∈ totals 0 zs, FitsLong t) → ∃ m, result = .single (.long m) ∧ m.toInt = zs.sum) ∧
    ((∃ t ∈ totals 0 zs, ¬ FitsLong t) → result = overflow) ∧
    (¬ FitsLong zs.sum → result = overflow) ∧
    ((∀ z ∈ zs, 0 ≤ z) ∨ (∀ z ∈ zs, z ≤ 0) → FitsLong zs.sum →
      ∃ m, result = .single (.long m) ∧ m.toInt = zs.sum) ∧
    ∀ {bindings' : Bindings} {f' e' : Expr} {x' : String} {nodes' : List Node},
      elements bindings' f' = .ok nodes' →
      (elementValues bindings' x' e' nodes').Perm values →
      ∀ m m', result = .single (.long m) →
        eval bindings' (.aggregate .sum f' x' e') = .single (.long m') → m = m' := by
  intro values zs result overflow
  have hexact : (∀ t ∈ totals 0 zs, FitsLong t) →
      ∃ m, result = .single (.long m) ∧ m.toInt = zs.sum := eval_sum_of_fits hnodes hvalues
  have hover : (∃ t ∈ totals 0 zs, ¬ FitsLong t) → result = overflow :=
    eval_sum_of_exceeds hnodes hvalues
  refine ⟨hexact, hover, ?_, ?_, ?_⟩
  · intro hsum
    have hlast := sum_mem_totals 0 zs
    rw [Int.zero_add] at hlast
    exact hover ⟨zs.sum, hlast, hsum⟩
  · intro hsign hsum
    exact hexact (forall_totals_fitsLong hsign (by decide) (by rwa [Int.zero_add]))
  · intro bindings' f' e' x' nodes' hnodes' hperm m m' hm hm'
    have hvalues' : ∀ s ∈ elementValues bindings' x' e' nodes', s = .null ∨ ∃ n, s = .long n :=
      fun s hs => hvalues s (hperm.mem_iff.1 hs)
    have hzs : (integers (elementValues bindings' x' e' nodes')).Perm zs :=
      (hperm.filterMap toLong?).map Int64.toInt
    have hint : m.toInt = m'.toInt := by
      rw [toInt_of_eval_sum hnodes hvalues hm, toInt_of_eval_sum hnodes' hvalues' hm', hzs.sum_eq]
    exact Int64.toInt_inj.1 hint

/-- Totals may touch both ends. -/
theorem eval_sum_of_extremes :
    let bindings : Bindings := [("o", .array ⟨0, ⟨0, 52⟩⟩ [
      .atom ⟨1, ⟨1, 20⟩⟩ (.long 9223372036854775807), .atom ⟨2, ⟨21, 25⟩⟩ .null,
      .atom ⟨3, ⟨26, 46⟩⟩ (.long (-9223372036854775808)), .atom ⟨4, ⟨47, 49⟩⟩ (.long (-7)),
      .atom ⟨5, ⟨50, 51⟩⟩ (.long 9)])]
    let f : Expr := .field "o" (some [.key "o"])
    let e : Expr := .field "x" (some [.key "x"])
    ∃ nodes, elements bindings f = .ok nodes ∧
      (∀ s ∈ elementValues bindings "x" e nodes, s = .null ∨ ∃ n, s = .long n) ∧
      (∀ t ∈ totals 0 (integers (elementValues bindings "x" e nodes)), FitsLong t) ∧
      ∃ m, eval bindings (.aggregate .sum f "x" e) = .single (.long m) ∧ m.toInt = 1 := by
  intro bindings f e
  obtain ⟨nodes, hnodes, hall⟩ : ∃ nodes, elements bindings f = .ok nodes ∧
      elementValues bindings "x" e nodes = [.long 9223372036854775807, .null,
        .long (-9223372036854775808), .long (-7), .long 9] := ⟨_, rfl, rfl⟩
  have hvalues : ∀ s ∈ elementValues bindings "x" e nodes, s = .null ∨ ∃ n, s = .long n := by
    simp [hall]
  have hfits : ∀ t ∈ totals 0 (integers (elementValues bindings "x" e nodes)), FitsLong t := by
    rw [hall]
    decide
  obtain ⟨m, hm, hint⟩ := (eval_sum hnodes hvalues).1 hfits
  rw [hall] at hint
  exact ⟨nodes, hnodes, hvalues, hfits, m, hm, hint⟩

/-- A total on the way does not fit though the sum does, and in another order the sum is given. -/
theorem eval_sum_overflows :
    let field (name : String) : Expr := .field name (some [.key name])
    let sum : Expr := .aggregate .sum (field "o") "x" (field "x")
    let input (text : String) := Document.read 512 (Text.bytes text)
    (∃ root nodes, input "[9223372036854775807,1,-1]" = .ok ⟨512, some root⟩ ∧
      elements [("o", root)] (field "o") = .ok nodes ∧
      elementValues [("o", root)] "x" (field "x") nodes =
        [.long 9223372036854775807, .long 1, .long (-1)] ∧
      FitsLong (integers (elementValues [("o", root)] "x" (field "x") nodes)).sum ∧
      eval [("o", root)] sum = .single (.error "integer overflow in o.Sum")) ∧
    ∃ root nodes, input "[9223372036854775807,-1,1]" = .ok ⟨512, some root⟩ ∧
      elements [("o", root)] (field "o") = .ok nodes ∧
      elementValues [("o", root)] "x" (field "x") nodes =
        [.long 9223372036854775807, .long (-1), .long 1] ∧
      eval [("o", root)] sum = .single (.long 9223372036854775807) := by
  intro field sum input
  exact ⟨⟨_, _, rfl, rfl, rfl, by decide, rfl⟩, _, _, rfl, rfl, rfl, rfl⟩

end Expr

end Quarry
