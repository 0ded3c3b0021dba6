import Mathlib.Tactic
import Quarry.Numeral.Shortest

/-!
The shortest digits of a positive number are not zero.
-/

namespace Quarry.Numeral

theorem fiveTo_pos (n : Nat) : 0 < fiveTo n := by
  induction n with
  | zero => decide
  | succ n ih =>
    rw [fiveTo_succ]
    omega

namespace Dyadic

theorem gapAt_pos (x : Dyadic) (e : Int) : 0 < x.gapAt e :=
  Nat.mul_pos (twoTo_pos _) (tenTo_pos _)

/-- Zero does not read back as a positive number. -/
theorem readsBack_zero {x : Dyadic} (h : x.mant ≠ 0) (e : Int) : x.readsBack ⟨0, e⟩ = false := by
  have hgap := x.gapAt_pos e
  have hmant : 1 ≤ x.mant := Nat.one_le_iff_ne_zero.2 h
  have hvalue : x.gapAt e ≤ x.mant * x.gapAt e := Nat.le_mul_of_pos_left _ hmant
  rw [readsBack]
  simp only [Nat.zero_mul, Nat.le_zero_eq, Nat.sub_zero]
  rw [if_neg (by omega)]
  split
  · simp only [Bool.or_eq_false_iff, decide_eq_false_iff_not, Bool.and_eq_false_iff,
      beq_eq_false_iff_ne]
    omega
  · simp only [Bool.or_eq_false_iff, decide_eq_false_iff_not, Bool.and_eq_false_iff,
      beq_eq_false_iff_ne]
    omega

theorem onGrid_pos {tie : Tie} {x : Dyadic} {e : Int} {d : Digits} (h : x.mant ≠ 0)
    (hd : x.onGrid tie e = some d) : 0 < d.digits := by
  have hbelow {v : Nat} (hv : x.readsBack ⟨v, e⟩ = true) : 0 < v := by
    rcases Nat.eq_zero_or_pos v with rfl | hpos
    · simp [readsBack_zero h] at hv
    · exact hpos
  unfold onGrid at hd
  simp only at hd
  split at hd
  · cases hd
  · rename_i hb _
    obtain rfl := Option.some.inj hd
    exact hbelow hb
  · obtain rfl := Option.some.inj hd
    exact Nat.succ_pos _
  · rename_i hb _
    have hpos := hbelow hb
    split at hd
    · obtain rfl := Option.some.inj hd
      exact hpos
    · obtain rfl := Option.some.inj hd
      exact Nat.succ_pos _
    · split at hd
      · obtain rfl := Option.some.inj hd
        exact Nat.succ_pos _
      · split at hd
        · obtain rfl := Option.some.inj hd
          exact hpos
        · obtain rfl := Option.some.inj hd
          exact Nat.succ_pos _

theorem exact_pos {x : Dyadic} (h : x.mant ≠ 0) : 0 < x.exact.digits := by
  have hmant : 0 < x.mant := Nat.pos_of_ne_zero h
  rw [exact]
  split
  · exact Nat.mul_pos hmant (twoTo_pos _)
  · exact Nat.mul_pos hmant (fiveTo_pos _)

end Dyadic

theorem Digits.strip_pos {d : Digits} (fuel : Nat) (h : 0 < d.digits) :
    0 < (d.strip fuel).digits := by
  induction fuel generalizing d with
  | zero => exact h
  | succ fuel ih =>
    rw [strip]
    split
    · exact ih (by show 0 < d.digits / 10; omega)
    · exact h

/-- The shortest digits come from a grid, or are all there are. -/
theorem shortest_induct {P : Digits → Prop} {tie : Tie} {x : Dyadic}
    (grid : ∀ e d, x.onGrid tie e = some d → P (d.strip 17)) (all : P x.exact) :
    P (shortest tie x) := by
  -- The function is opened as a whole: on its arguments the kernel would search the grids.
  have hdef : shortest = shortest := rfl
  conv at hdef =>
    rhs
    delta shortest
  rw [hdef]
  beta_reduce
  split
  · rename_i d hd
    obtain ⟨n, -, hn⟩ := List.exists_of_findSome?_eq_some hd
    exact grid _ d hn
  · exact all

theorem shortest_pos {x : Dyadic} (tie : Tie) (h : x.mant ≠ 0) : 0 < (shortest tie x).digits := by
  have hgrid : ∀ e d, x.onGrid tie e = some d → 0 < (d.strip 17).digits := by
    intro e d hd
    exact Digits.strip_pos 17 (Dyadic.onGrid_pos h hd)
  exact shortest_induct (P := fun d => 0 < d.digits) hgrid (Dyadic.exact_pos h)

end Quarry.Numeral
