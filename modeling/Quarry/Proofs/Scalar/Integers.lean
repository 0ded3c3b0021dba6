import Mathlib
import Quarry.Proofs.Numeral.Normalized
import Quarry.Scalar.Arithmetic

/-!
Arithmetic on integers of 64 bits. It never wraps: a result is the integer itself, or it is floating
point for a division that leaves the integers, or it is an error.
-/

namespace Quarry.Scalar

/-! ### Range -/

/-- Whether 64 bits hold an integer. -/
def FitsLong (z : Int) : Prop := -9223372036854775808 ≤ z ∧ z < 9223372036854775808

instance (z : Int) : Decidable (FitsLong z) := inferInstanceAs (Decidable (_ ∧ _))

theorem fitsLong_toInt (n : Int64) : FitsLong n.toInt := by
  have h1 := n.le_toInt
  have h2 := n.toInt_lt
  exact ⟨by omega, by omega⟩

theorem exists_long? {z : Int} (h : FitsLong z) : ∃ n, long? z = some n ∧ n.toInt = z := by
  have hsome : long? z = some (Int64.ofInt z) := if_pos h
  exact ⟨_, hsome, toInt_of_long? hsome⟩

theorem long?_eq_none {z : Int} (h : ¬ FitsLong z) : long? z = none := if_neg h

theorem long?_eq_some_iff {z : Int} {n : Int64} : long? z = some n ↔ n.toInt = z :=
  ⟨toInt_of_long?, fun h => h ▸ long?_toInt n⟩

theorem fitsLong_iff {z : Int} : FitsLong z ↔ ∃ n : Int64, n.toInt = z := by
  constructor
  · intro h
    obtain ⟨n, -, hn⟩ := exists_long? h
    exact ⟨n, hn⟩
  · rintro ⟨n, rfl⟩
    exact fitsLong_toInt n

variable {a b : Int64}

theorem eq_zero_iff_toInt : b = 0 ↔ b.toInt = 0 := by
  rw [← Int64.toInt_inj, Int64.toInt_zero]

/-- What an operation says whose result 64 bits do not hold. -/
def overflowMessage (symbol : String) (a b : Int64) : String :=
  s!"integer overflow: {a.toInt} {symbol} {b.toInt}"

def byZeroMessage (symbol : String) (a b : Int64) : String :=
  s!"division by zero: {a.toInt} {symbol} {b.toInt}"

/-! ### Sums, differences and products -/

/-- The integer itself where 64 bits hold it, and an error otherwise. -/
def Exactly (z : Int) (message : String) (s : Scalar) : Prop :=
  ((∃ n : Int64, s = .long n ∧ n.toInt = z) ↔ FitsLong z) ∧ (s = .error message ↔ ¬ FitsLong z)

theorem arithmetic_longs (symbol : String) (onLongs : Int64 → Int64 → Option Int64)
    (onFloats : Float → Float → Float) (a b : Int64) :
    arithmetic symbol onLongs onFloats (.long a) (.long b) =
      match onLongs a b with
      | some n => .long n
      | none => .error (overflowMessage symbol a b) := rfl

theorem exactly_arithmetic (symbol : String) {onLongs : Int64 → Int64 → Option Int64}
    (onFloats : Float → Float → Float) {z : Int} (h : onLongs a b = long? z) :
    (arithmetic symbol onLongs onFloats (.long a) (.long b)).Exactly z
      (overflowMessage symbol a b) := by
  rw [arithmetic_longs, h]
  by_cases hfits : FitsLong z
  · obtain ⟨n, hn, hint⟩ := exists_long? hfits
    rw [hn]
    exact ⟨iff_of_true ⟨n, rfl, hint⟩ hfits, iff_of_false nofun (not_not_intro hfits)⟩
  · rw [long?_eq_none hfits]
    exact ⟨iff_of_false nofun hfits, iff_of_true rfl hfits⟩

/-! ### Division by zero -/

/-- The test for zero goes through floating point, where no other integer becomes zero. -/
theorem isZero_long (n : Int64) : isZero (.long n) = decide (n = 0) := by
  show (Float.ofInt n.toInt == 0.0) = _
  rw [Numeral.ofInt_beq_zero, decide_eq_decide, ← eq_zero_iff_toInt]

theorem dividing_longs (symbol : String) (result : Scalar → Scalar → Scalar) (a b : Int64) :
    dividing symbol result (.long a) (.long b) =
      if b = 0 then .error (byZeroMessage symbol a b) else result (.long a) (.long b) := by
  show (if isZero (.long b) && true then _ else _) = _
  rw [Bool.and_true, isZero_long]
  simp only [decide_eq_true_eq]
  rfl

theorem longs_by_zero (a : Int64) (hb : b = 0) :
    divide (.long a) (.long b) = .error (byZeroMessage "/" a b) ∧
      modulo (.long a) (.long b) = .error (byZeroMessage "%" a b) :=
  ⟨(dividing_longs "/" _ a b).trans (if_pos hb), (dividing_longs "%" _ a b).trans (if_pos hb)⟩

/-! ### Truncating division -/

/-- The quotient of the least integer by `-1` is the only one that 64 bits do not hold. -/
theorem fitsLong_tdiv_iff :
    FitsLong (a.toInt.tdiv b.toInt) ↔ ¬ (a = Int64.minValue ∧ b = -1) := by
  have hmin : Int64.minValue.toInt = -9223372036854775808 := rfl
  have hminus : (-1 : Int64).toInt = -1 := rfl
  obtain ⟨hlow, hhigh⟩ := fitsLong_toInt a
  rw [← Int64.toInt_inj, ← Int64.toInt_inj, hmin, hminus]
  have habs : (a.toInt.tdiv b.toInt).natAbs = a.toInt.natAbs / b.toInt.natAbs :=
    Int.natAbs_tdiv a.toInt b.toInt
  unfold FitsLong
  by_cases hone : b.toInt.natAbs = 1
  · obtain hb | hb : b.toInt = 1 ∨ b.toInt = -1 := by omega
    · rw [hb, Int.tdiv_one]
      omega
    · rw [hb, Int.tdiv_neg, Int.tdiv_one]
      omega
  -- Any other divisor at least halves the magnitude.
  · have hhalf : a.toInt.natAbs / b.toInt.natAbs ≤ a.toInt.natAbs / 2 := by
      by_cases hzero : b.toInt.natAbs = 0
      · rw [hzero, Nat.div_zero]
        exact Nat.zero_le _
      · exact Nat.div_le_div_left (by omega) (by decide)
    omega

theorem fitsLong_tmod (a b : Int64) : FitsLong (a.toInt.tmod b.toInt) := by
  obtain ⟨hlow, hhigh⟩ := fitsLong_toInt b
  have habs := Int.natAbs_tmod a.toInt b.toInt
  unfold FitsLong
  by_cases hzero : b.toInt.natAbs = 0
  · rw [Int.natAbs_eq_zero.1 hzero, Int.tmod_zero]
    exact fitsLong_toInt a
  · have hlt := Nat.mod_lt a.toInt.natAbs (Nat.pos_of_ne_zero hzero)
    omega

theorem remainder_of_tmod (hb : b ≠ 0) {r : Int64} (h : r.toInt = a.toInt.tmod b.toInt) :
    a.toInt = b.toInt * a.toInt.tdiv b.toInt + r.toInt ∧ |r.toInt| < |b.toInt| ∧
      (r = 0 ∨ r.toInt.sign = a.toInt.sign) := by
  have hb : 0 < b.toInt.natAbs := Int.natAbs_pos.2 (mt eq_zero_iff_toInt.2 hb)
  refine ⟨by rw [h, Int.mul_tdiv_add_tmod], ?_, ?_⟩
  · rw [h, Int.abs_eq_natAbs, Int.abs_eq_natAbs, Int.natAbs_tmod, Int.ofNat_lt]
    exact Nat.mod_lt _ hb
  · rw [eq_zero_iff_toInt, h]
    by_cases hdvd : b.toInt ∣ a.toInt
    · exact .inl (Int.dvd_iff_tmod_eq_zero.1 hdvd)
    · rw [Int.sign_tmod, if_neg hdvd]
      exact .inr rfl

theorem moduloLong?_eq_some_iff (hb : b ≠ 0) {r : Int64} :
    moduloLong? a b = some r ↔
      FitsLong (a.toInt.tdiv b.toInt) ∧ r.toInt = a.toInt.tmod b.toInt := by
  have hb : b.toInt ≠ 0 := mt eq_zero_iff_toInt.2 hb
  unfold moduloLong?
  by_cases hfits : FitsLong (a.toInt.tdiv b.toInt)
  · obtain ⟨q, hq, -⟩ := exists_long? hfits
    have hquotient : ¬ (b.toInt = 0 ∨ (some q).isNone = true) :=
      not_or_intro hb Bool.false_ne_true
    rw [hq, if_neg hquotient, long?_eq_some_iff]
    exact (and_iff_right hfits).symm
  · rw [long?_eq_none hfits, if_pos (.inr rfl)]
    exact iff_of_false nofun fun h => hfits h.1

theorem moduloLong?_eq_none_iff (hb : b ≠ 0) :
    moduloLong? a b = none ↔ a = Int64.minValue ∧ b = -1 := by
  rw [← not_iff_not, ← fitsLong_tdiv_iff, ← ne_eq, Option.ne_none_iff_exists']
  constructor
  · rintro ⟨r, hr⟩
    exact ((moduloLong?_eq_some_iff hb).1 hr).1
  · intro hfits
    obtain ⟨r, -, hr⟩ := exists_long? (fitsLong_tmod a b)
    exact ⟨r, (moduloLong?_eq_some_iff hb).2 ⟨hfits, hr⟩⟩

/-- Whether a division is exact, with a quotient that 64 bits hold. -/
def Divides (b a : Int64) : Prop := b.toInt ∣ a.toInt ∧ FitsLong (a.toInt / b.toInt)

instance (b a : Int64) : Decidable (Divides b a) := inferInstanceAs (Decidable (_ ∧ _))

theorem moduloLong?_eq_zero_iff (hb : b ≠ 0) : moduloLong? a b = some 0 ↔ Divides b a := by
  rw [moduloLong?_eq_some_iff hb, Int64.toInt_zero, eq_comm, ← Int.dvd_iff_tmod_eq_zero, and_comm]
  apply and_congr_right
  intro hdvd
  rw [Int.tdiv_eq_ediv_of_dvd hdvd]

/-! ### Quotients -/

/-- The quotient of a division without a remainder never overflows. -/
theorem quotient_of_divides (hb : b ≠ 0) (h : Divides b a) :
    ∃ q : Int64, quotient (.long a) (.long b) = .long q ∧ q.toInt = a.toInt / b.toInt := by
  obtain ⟨q, hq, hint⟩ := exists_long? h.2
  refine ⟨q, ?_, hint⟩
  have hdivide : divideLong? a b = some q := by
    rw [divideLong?, if_neg (mt eq_zero_iff_toInt.2 hb), Int.tdiv_eq_ediv_of_dvd h.1, hq]
  unfold quotient
  simp only [if_pos ((moduloLong?_eq_zero_iff hb).2 h), hdivide]

theorem quotient_of_not_divides (hb : b ≠ 0) (h : ¬ Divides b a) :
    quotient (.long a) (.long b) = .double (longToFloat a / longToFloat b) :=
  if_neg (mt (moduloLong?_eq_zero_iff hb).1 h)

theorem divide_longs (hb : b ≠ 0) :
    divide (.long a) (.long b) = quotient (.long a) (.long b) := by
  unfold divide
  rw [dividing_longs, if_neg hb]

theorem divide_eq_long_iff (hb : b ≠ 0) {q : Int64} :
    divide (.long a) (.long b) = .long q ↔ b.toInt ∣ a.toInt ∧ q.toInt = a.toInt / b.toInt := by
  rw [divide_longs hb]
  by_cases h : Divides b a
  · obtain ⟨q', hq', hint⟩ := quotient_of_divides hb h
    rw [hq', Scalar.long.injEq, ← hint, Int64.toInt_inj, eq_comm]
    exact (and_iff_right h.1).symm
  · rw [quotient_of_not_divides hb h]
    exact iff_of_false nofun fun hq => h ⟨hq.1, hq.2 ▸ fitsLong_toInt q⟩

theorem exists_divide_eq_long_iff (hb : b ≠ 0) :
    (∃ q, divide (.long a) (.long b) = .long q) ↔ Divides b a := by
  simp only [divide_eq_long_iff hb, exists_and_left, Divides, fitsLong_iff]

theorem isError_divide (hb : b ≠ 0) : (divide (.long a) (.long b)).isError = false := by
  rw [divide_longs hb]
  by_cases h : Divides b a
  · obtain ⟨q, hq, -⟩ := quotient_of_divides hb h
    rw [hq]
    rfl
  · rw [quotient_of_not_divides hb h]
    rfl

theorem divide_eq_double_iff (hb : b ≠ 0) :
    divide (.long a) (.long b) = .double (longToFloat a / longToFloat b) ↔
      ¬ Divides b a := by
  constructor
  · intro hdouble h
    obtain ⟨q, hq, -⟩ := quotient_of_divides hb h
    rw [divide_longs hb, hq] at hdouble
    cases hdouble
  · intro h
    rw [divide_longs hb, quotient_of_not_divides hb h]

/-! ### Remainders -/

theorem modulo_longs (hb : b ≠ 0) :
    modulo (.long a) (.long b) =
      match moduloLong? a b with
      | some r => .long r
      | none => .error (overflowMessage "%" a b) := by
  unfold modulo
  rw [dividing_longs, if_neg hb, arithmetic_longs]

theorem modulo_eq_long_iff (hb : b ≠ 0) {r : Int64} :
    modulo (.long a) (.long b) = .long r ↔ moduloLong? a b = some r := by
  rw [modulo_longs hb]
  cases moduloLong? a b <;> simp

theorem modulo_eq_zero_iff (hb : b ≠ 0) :
    modulo (.long a) (.long b) = .long 0 ↔ Divides b a :=
  (modulo_eq_long_iff hb).trans (moduloLong?_eq_zero_iff hb)

theorem modulo_eq_error_iff (hb : b ≠ 0) :
    modulo (.long a) (.long b) = .error (overflowMessage "%" a b) ↔
      a = Int64.minValue ∧ b = -1 := by
  rw [modulo_longs hb, ← moduloLong?_eq_none_iff hb]
  cases moduloLong? a b <;> simp

theorem modulo_of_fits (hb : b ≠ 0) (h : ¬ (a = Int64.minValue ∧ b = -1)) :
    ∃ r : Int64, modulo (.long a) (.long b) = .long r ∧ r.toInt = a.toInt.tmod b.toInt := by
  obtain ⟨r, -, hr⟩ := exists_long? (fitsLong_tmod a b)
  have hsome := (moduloLong?_eq_some_iff hb).2 ⟨fitsLong_tdiv_iff.2 h, hr⟩
  exact ⟨r, (modulo_eq_long_iff hb).2 hsome, hr⟩

/-! ### All operations -/

/-- Sums, differences and products of integers are the integers themselves or overflows. A division
by zero is an error in both of its operations; any other quotient is an integer where the division
is exact and the quotient has 64 bits, and floating point elsewhere. The remainder is an integer but
for one pair of operands, and it is zero exactly where the quotient is an integer. -/
theorem longs_exact (a b : Int64) :
    (add (.long a) (.long b)).Exactly (a.toInt + b.toInt) (overflowMessage "+" a b) ∧
    (subtract (.long a) (.long b)).Exactly (a.toInt - b.toInt) (overflowMessage "-" a b) ∧
    (multiply (.long a) (.long b)).Exactly (a.toInt * b.toInt) (overflowMessage "*" a b) ∧
    (b = 0 →
      divide (.long a) (.long b) = .error (byZeroMessage "/" a b) ∧
      modulo (.long a) (.long b) = .error (byZeroMessage "%" a b)) ∧
    (b ≠ 0 →
      (∀ q : Int64, divide (.long a) (.long b) = .long q ↔
        b.toInt ∣ a.toInt ∧ q.toInt = a.toInt / b.toInt) ∧
      (∀ q : Int64, divide (.long a) (.long b) = .long q → q.toInt * b.toInt = a.toInt) ∧
      (divide (.long a) (.long b) = .double (longToFloat a / longToFloat b) ↔ ¬ Divides b a) ∧
      (divide (.long a) (.long b)).isError = false ∧
      (modulo (.long a) (.long b) = .error (overflowMessage "%" a b) ↔
        a = Int64.minValue ∧ b = -1) ∧
      (¬ (a = Int64.minValue ∧ b = -1) → ∃ r : Int64, modulo (.long a) (.long b) = .long r ∧
        a.toInt = b.toInt * a.toInt.tdiv b.toInt + r.toInt ∧ |r.toInt| < |b.toInt| ∧
        (r = 0 ∨ r.toInt.sign = a.toInt.sign))) ∧
    ((∃ q, divide (.long a) (.long b) = .long q) ↔ modulo (.long a) (.long b) = .long 0) := by
  refine ⟨exactly_arithmetic "+" _ rfl, exactly_arithmetic "-" _ rfl, exactly_arithmetic "*" _ rfl,
    longs_by_zero a, ?nonzero, ?agreement⟩
  case nonzero =>
    intro hb
    refine ⟨fun q => divide_eq_long_iff hb, ?_, divide_eq_double_iff hb, isError_divide hb,
      modulo_eq_error_iff hb, ?_⟩
    · intro q hq
      obtain ⟨hdvd, hint⟩ := (divide_eq_long_iff hb).1 hq
      rw [hint, Int.ediv_mul_cancel hdvd]
    · intro h
      obtain ⟨r, hr, hint⟩ := modulo_of_fits hb h
      exact ⟨r, hr, remainder_of_tmod hb hint⟩
  case agreement =>
    by_cases hb : b = 0
    · obtain ⟨hdivide, hmodulo⟩ := longs_by_zero a hb
      rw [hdivide, hmodulo]
      exact iff_of_false nofun nofun
    · exact (exists_divide_eq_long_iff hb).trans (modulo_eq_zero_iff hb).symm

/-- The quotient that 64 bits do not hold, a remainder of a negative number, and a division by
zero. -/
theorem longs_exact_of_extremes :
    (-1 : Int64) ≠ 0 ∧
    (∃ x, divide (.long Int64.minValue) (.long (-1)) = .double x) ∧
    modulo (.long Int64.minValue) (.long (-1)) =
      .error "integer overflow: -9223372036854775808 % -1" ∧
    ¬ ((-7 : Int64) = Int64.minValue ∧ (2 : Int64) = -1) ∧
    (∃ r : Int64, modulo (.long (-7)) (.long 2) = .long r ∧ -7 = 2 * -3 + r.toInt) ∧
    (0 : Int64) = 0 ∧ divide (.long 1) (.long 0) = .error "division by zero: 1 / 0" := by
  have hminus : (-1 : Int64) ≠ 0 := by decide
  have hseven : ¬ ((-7 : Int64) = Int64.minValue ∧ (2 : Int64) = -1) := by decide
  obtain ⟨-, -, hdouble, -, hoverflow, -⟩ := (longs_exact Int64.minValue (-1)).2.2.2.2.1 hminus
  obtain ⟨-, -, -, -, -, hremainder⟩ := (longs_exact (-7) 2).2.2.2.2.1 (by decide)
  obtain ⟨r, hr, heq, -⟩ := hremainder hseven
  exact ⟨hminus, ⟨_, hdouble.2 (by decide)⟩, hoverflow.2 (by decide), hseven, ⟨r, hr, heq⟩, rfl,
    ((longs_exact 1 0).2.2.2.1 rfl).1⟩

end Quarry.Scalar
