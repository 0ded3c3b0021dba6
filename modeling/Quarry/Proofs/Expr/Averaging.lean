import Mathlib
import Quarry.Proofs.Expr.Summing
import Quarry.Proofs.Numeral.Fixed

/-!
Averages of integers. The sum is taken in decimals, which hold the sum of any `2 ^ 32` integers of
64 bits, so that an average is told by that sum and the number of the integers.
-/

namespace Quarry.Expr

open Scalar Numeral

/-! ### Totals -/

theorem decimalTotal_longs (range : String) {ns : List Int64} {sum : Int}
    (h : sum.natAbs + ns.length * 2 ^ 63 < Fixed.mantLimit) :
    decimalTotal range (some (.ofInt sum)) (ns.map .long) =
      .ok (some (.ofInt (sum + (ns.map Int64.toInt).sum))) := by
  -- A step adds at most `2 ^ 63` to the magnitude, and the bound has that much less to cover.
  induction ns generalizing sum with
  | nil => simp [decimalTotal]
  | cons n ns ih =>
    rw [List.length_cons] at h
    obtain ⟨hlow, hhigh⟩ := fitsLong_toInt n
    have hnext : (sum + n.toInt).natAbs + ns.length * 2 ^ 63 < Fixed.mantLimit := by omega
    have hadd : (Fixed.ofInt sum).add? (.ofInt n.toInt) = some (.ofInt (sum + n.toInt)) :=
      Fixed.add?_ofInt (by omega)
    have hstep : decimalTotal range (some (.ofInt sum)) ((n :: ns).map .long) =
        decimalTotal range ((Fixed.ofInt sum).add? (.ofInt n.toInt)) (ns.map .long) := rfl
    rw [hstep, hadd, ih hnext, List.map_cons, List.sum_cons, Int.add_assoc]

theorem total_longs (range : String) {ns : List Int64} (h : ns.length < 2 ^ 32) :
    total range (ns.map .long) = .ok (some (.ofInt (ns.map Int64.toInt).sum)) := by
  have hfits : (0 : Int).natAbs + ns.length * 2 ^ 63 < Fixed.mantLimit := by
    unfold Fixed.mantLimit
    omega
  rw [total, Fixed.zero_eq_ofInt, decimalTotal_longs range hfits, Int.zero_add]

/-! ### Quotients -/

theorem fitsLong_quotient {zs : List Int} {q : Int} (hfits : ∀ z ∈ zs, FitsLong z)
    (hne : zs ≠ []) (hq : zs.sum = q * zs.length) : FitsLong q := by
  have hcount : 0 < (zs.length : Int) := by
    have hpos := List.length_pos_iff.2 hne
    omega
  have hlow : zs.length • (-9223372036854775808 : Int) ≤ zs.sum :=
    List.card_nsmul_le_sum zs _ fun z hz => (hfits z hz).1
  have hhigh : zs.sum ≤ zs.length • (9223372036854775807 : Int) :=
    List.sum_le_card_nsmul zs _ fun z hz => Int.le_of_lt_add_one (hfits z hz).2
  rw [hq, nsmul_eq_mul, mul_comm q] at hlow hhigh
  have hlow := le_of_mul_le_mul_left hlow hcount
  have hhigh := le_of_mul_le_mul_left hhigh hcount
  exact ⟨hlow, by omega⟩

/-! ### Aggregates -/

section

variable {values : List Scalar}

theorem present_ne_nil_iff : present values ≠ [] ↔ ∃ s ∈ values, s ≠ .null := by
  have hnull (s : Scalar) : s.isNull = true ↔ s = .null := by cases s <;> simp [isNull]
  simp [present, hnull]

variable (h : ∀ s ∈ values, s = .null ∨ ∃ n, s = .long n)

include h

theorem length_present : (present values).length = (integers values).length := by
  rw [present_eq h, integers, List.length_map, List.length_map]

theorem total_present (range : String) (hlen : values.length < 2 ^ 32) :
    total range (present values) = .ok (some (.ofInt (integers values).sum)) := by
  have hshort : (values.filterMap toLong?).length < 2 ^ 32 :=
    (List.length_filterMap_le _ _).trans_lt hlen
  rw [present_eq h, total_longs range hshort]
  rfl

theorem aggregateAll_average (range : String) (hsome : ∃ s ∈ values, s ≠ .null)
    (hlen : values.length < 2 ^ 32) :
    aggregateAll .average range values =
      .double ((Fixed.ofInt (integers values).sum).divide (present values).length).toFloat := by
  have hempty : (present values).isEmpty = false :=
    List.isEmpty_eq_false_iff.2 (present_ne_nil_iff.2 hsome)
  rw [aggregateAll, find?_isError_eq_none h]
  show averageOf range (present values) = _
  rw [averageOf, hempty, total_present h range hlen]
  rfl

theorem exists_quotient (hsome : ∃ s ∈ values, s ≠ .null)
    (hdvd : ((present values).length : Int) ∣ (integers values).sum) :
    ∃ m : Int64, (integers values).sum = m.toInt * (present values).length ∧
      ((Fixed.ofInt (integers values).sum).divide (present values).length).toFloat =
        longToFloat m := by
  have hpos : 0 < (present values).length := List.length_pos_iff.2 (present_ne_nil_iff.2 hsome)
  have hcount := length_present h
  obtain ⟨q, hq⟩ := hdvd
  rw [mul_comm] at hq
  have hfits : FitsLong q := by
    refine fitsLong_quotient (?_ : ∀ z ∈ integers values, FitsLong z) ?_ ?_
    · intro z hz
      obtain ⟨n, -, rfl⟩ := List.mem_map.1 hz
      exact fitsLong_toInt n
    · rw [← List.length_pos_iff, ← hcount]
      exact hpos
    · rw [← hcount]
      exact hq
  obtain ⟨m, -, rfl⟩ := exists_long? hfits
  refine ⟨m, hq, ?_⟩
  rw [hq, Fixed.divide_ofInt hpos, Fixed.toFloat_ofInt]
  rfl

end

variable {bindings : Bindings} {f e : Expr} {x : String} {nodes : List Node}

theorem eval_average_eq (hnodes : elements bindings f = .ok nodes)
    (hvalues : ∀ s ∈ elementValues bindings x e nodes, s = .null ∨ ∃ n, s = .long n)
    (hsome : ∃ s ∈ elementValues bindings x e nodes, s ≠ .null)
    (hlen : (elementValues bindings x e nodes).length < 2 ^ 32) :
    eval bindings (.aggregate .average f x e) =
      .single (.double ((Fixed.ofInt (integers (elementValues bindings x e nodes)).sum).divide
        (present (elementValues bindings x e nodes)).length).toFloat) := by
  rw [eval_aggregate .average hnodes, aggregateAll_average hvalues f.text hsome hlen]

/-- The total of fewer than `2 ^ 32` integers and nulls, not all null, is their sum, so that the
average never fails, and it depends on the sum and the number of the integers alone. Where the
number divides the sum the quotient is an integer of 64 bits, and the average is this integer in
floating point. -/
theorem eval_average (hnodes : elements bindings f = .ok nodes)
    (hvalues : ∀ s ∈ elementValues bindings x e nodes, s = .null ∨ ∃ n, s = .long n)
    (hsome : ∃ s ∈ elementValues bindings x e nodes, s ≠ .null)
    (hlen : (elementValues bindings x e nodes).length < 2 ^ 32) :
    let values := elementValues bindings x e nodes
    let sum := (integers values).sum
    let count := (present values).length
    let result := eval bindings (.aggregate .average f x e)
    total f.text (present values) = .ok (some (.ofInt sum)) ∧
    result = .single (.double ((Fixed.ofInt sum).divide count).toFloat) ∧
    (∀ {bindings' : Bindings} {f' e' : Expr} {x' : String} {nodes' : List Node},
      elements bindings' f' = .ok nodes' →
      (∀ s ∈ elementValues bindings' x' e' nodes', s = .null ∨ ∃ n, s = .long n) →
      (elementValues bindings' x' e' nodes').length < 2 ^ 32 →
      (integers (elementValues bindings' x' e' nodes')).sum = sum →
      (present (elementValues bindings' x' e' nodes')).length = count →
      eval bindings' (.aggregate .average f' x' e') = result) ∧
    ((count : Int) ∣ sum →
      ∃ m : Int64, sum = m.toInt * count ∧ result = .single (.double (longToFloat m))) := by
  intro values sum count result
  have hresult : result = .single (.double ((Fixed.ofInt sum).divide count).toFloat) :=
    eval_average_eq hnodes hvalues hsome hlen
  refine ⟨total_present hvalues f.text hlen, hresult, ?_, ?_⟩
  · intro bindings' f' e' x' nodes' hnodes' hvalues' hlen' hsum hcount'
    have hpos : 0 < count := List.length_pos_iff.2 (present_ne_nil_iff.2 hsome)
    have hsome' := present_ne_nil_iff.1 (List.length_pos_iff.1 (hcount' ▸ hpos))
    rw [eval_average_eq hnodes' hvalues' hsome' hlen', hsum, hcount', hresult]
  · intro hdvd
    obtain ⟨m, hm, hquotient⟩ := exists_quotient hvalues hsome hdvd
    exact ⟨m, hm, by rw [hresult, hquotient]⟩

/-- The sum of the three integers has 65 bits. -/
theorem eval_average_of_extremes :
    let field (name : String) : Expr := .field name (some [.key name])
    let average : Expr := .aggregate .average (field "o") "x" (field "x")
    let input (text : String) := Document.read 512 (Text.bytes text)
    ∃ root nodes, input
        "[9223372036854775807,null,9223372036854775807,9223372036854775807]" =
          .ok ⟨512, some root⟩ ∧
      elements [("o", root)] (field "o") = .ok nodes ∧
      (∀ s ∈ elementValues [("o", root)] "x" (field "x") nodes, s = .null ∨ ∃ n, s = .long n) ∧
      (∃ s ∈ elementValues [("o", root)] "x" (field "x") nodes, s ≠ .null) ∧
      (elementValues [("o", root)] "x" (field "x") nodes).length < 2 ^ 32 ∧
      ∃ m : Int64, 3 * 9223372036854775807 = m.toInt * 3 ∧
        eval [("o", root)] average = .single (.double (longToFloat m)) := by
  intro field average input
  obtain ⟨root, nodes, hread, hnodes, hall⟩ : ∃ root nodes, input
        "[9223372036854775807,null,9223372036854775807,9223372036854775807]" =
          .ok ⟨512, some root⟩ ∧
      elements [("o", root)] (field "o") = .ok nodes ∧
      elementValues [("o", root)] "x" (field "x") nodes =
        [.long 9223372036854775807, .null, .long 9223372036854775807,
          .long 9223372036854775807] := ⟨_, _, rfl, rfl, rfl⟩
  have hvalues : ∀ s ∈ elementValues [("o", root)] "x" (field "x") nodes,
      s = .null ∨ ∃ n, s = .long n := by simp [hall]
  have hsome : ∃ s ∈ elementValues [("o", root)] "x" (field "x") nodes, s ≠ .null := by
    simp [hall]
  have hlen : (elementValues [("o", root)] "x" (field "x") nodes).length < 2 ^ 32 := by
    simp [hall]
  have hexact := (eval_average hnodes hvalues hsome hlen).2.2.2
  rw [hall] at hexact
  exact ⟨root, nodes, hread, hnodes, hvalues, hsome, hlen, hexact (by decide)⟩

end Quarry.Expr
