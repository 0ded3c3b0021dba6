import Mathlib.Tactic
import Quarry.Numeral.Reading

/-!
Integers as they are written in decimal.
-/

namespace Quarry.Numeral

theorem isDigit_toDigits (n : Nat) : ∀ c ∈ Nat.toDigits 10 n, c.isDigit = true := by
  intro c hc
  exact Nat.isDigit_of_mem_toDigits (by decide) (by decide) hc

theorem natOfDigits_toDigits (n : Nat) : natOfDigits (Nat.toDigits 10 n) = n :=
  Nat.ofDigitChars_ten_toDigits

theorem toList_toString (n : Nat) : (toString n).toList = Nat.toDigits 10 n := by
  rw [Nat.toString_eq_repr, Nat.toList_repr]

theorem toString_inj {i j : Nat} : toString i = toString j ↔ i = j := by
  refine ⟨fun h => ?_, fun h => h ▸ rfl⟩
  have hd := congrArg String.toList h
  rw [toList_toString, toList_toString] at hd
  rw [← natOfDigits_toDigits i, hd, natOfDigits_toDigits]

theorem digitChar_ne_zero {n : Nat} (h : 0 < n) (hn : n < 10) : Nat.digitChar n ≠ '0' := by
  interval_cases n <;> decide

/-- A positive number is written without a leading zero. -/
theorem head_toDigits {n : Nat} (h : 0 < n) : (Nat.toDigits 10 n).head? ≠ some '0' := by
  induction n using Nat.strongRecOn with
  | ind n ih =>
    rw [Nat.toDigits_eq_if (by decide)]
    split
    · rename_i hlt
      simpa using digitChar_ne_zero h hlt
    · rename_i hge
      have hdiv := ih (n / 10) (Nat.div_lt_self h (by decide)) (by omega)
      rw [List.head?_append_of_ne_nil _ Nat.toDigits_ne_nil]
      exact hdiv

theorem signOf_digits {c : Char} {cs : List Char} (h : c.isDigit = true) :
    signOf (c :: cs) = (false, c :: cs) := by
  have h1 : c ≠ '-' := by
    rintro rfl
    revert h
    decide
  have h2 : c ≠ '+' := by
    rintro rfl
    revert h
    decide
  rw [signOf]
  · simpa using h1
  · simpa using h2

theorem toDigits_cons (n : Nat) :
    ∃ c cs, Nat.toDigits 10 n = c :: cs ∧ c.isDigit = true := by
  cases h : Nat.toDigits 10 n with
  | nil => exact absurd h Nat.toDigits_ne_nil
  | cons c cs => exact ⟨c, cs, rfl, isDigit_toDigits n c (by simp [h])⟩

theorem index?_toString (n : Nat) :
    index? (toString n) = if n < UInt64.size then some n else none := by
  obtain ⟨c, cs, hcs, hc⟩ := toDigits_cons n
  have hall : (Nat.toDigits 10 n).all Char.isDigit = true := List.all_eq_true.2 (isDigit_toDigits n)
  have hn := natOfDigits_toDigits n
  have hplus : c ≠ '+' := by
    rintro rfl
    revert hc
    decide
  rw [hcs] at hall hn
  unfold index?
  rw [toList_toString, hcs]
  split
  · rename_i heq
    exact absurd (List.cons.inj heq).1 hplus
  · simp only [hall, hn, List.isEmpty_cons, Bool.not_true, Bool.or_false, Bool.false_eq_true,
      ↓reduceIte]

theorem toList_toString_ofNat (n : Nat) :
    (toString (Int.ofNat n)).toList = Nat.toDigits 10 n := toList_toString n

theorem toList_toString_negSucc (n : Nat) :
    (toString (Int.negSucc n)).toList = '-' :: Nat.toDigits 10 (n + 1) := by
  rw [← toList_toString]
  show ("-" ++ toString (n + 1)).toList = _
  rw [String.toList_append]
  rfl

theorem integer?_toString (z : Int) : integer? (toString z) = some z := by
  cases z with
  | ofNat n =>
    obtain ⟨c, cs, hcs, hc⟩ := toDigits_cons n
    have hall : (Nat.toDigits 10 n).all Char.isDigit = true :=
      List.all_eq_true.2 (isDigit_toDigits n)
    have hn := natOfDigits_toDigits n
    rw [hcs] at hall hn
    rw [integer?, toList_toString_ofNat, hcs, signOf_digits hc]
    simp [hall, hn]
  | negSucc n =>
    have hall : (Nat.toDigits 10 (n + 1)).all Char.isDigit = true :=
      List.all_eq_true.2 (isDigit_toDigits (n + 1))
    have hne : (Nat.toDigits 10 (n + 1)).isEmpty = false := by
      rw [List.isEmpty_eq_false_iff]
      exact Nat.toDigits_ne_nil
    have hn := natOfDigits_toDigits (n + 1)
    rw [integer?, toList_toString_negSucc, signOf]
    simp only [hall, hn, hne, Bool.not_true, Bool.or_false, Bool.false_eq_true, ↓reduceIte]
    rfl

end Quarry.Numeral
