import Mathlib

/-!
Integers as floating-point numbers. An integer other than zero is rounded to a normal number, so
that none but zero is equal to zero in floating point.
-/

namespace Quarry.Numeral

open Float.Model (Format)
open Float.Model.UnpackedFloat

/-- A number whose mantissa has its leading bit, with an exponent of at least `least`. -/
inductive Normalized (least : Int) : Float.Model.UnpackedFloat → Prop
  | infinity (s : Sign) : Normalized least (.infinity s)
  | finite {s : Sign} {m : Nat} {e : Int} {hm : 0 < m} (hlog : m.log2 = 52) (he : least ≤ e) :
    Normalized least (.finite s m e hm)

variable {least : Int} {u : Float.Model.UnpackedFloat}

theorem Normalized.mono (h : Normalized least u) {least' : Int} (hle : least' ≤ least) :
    Normalized least' u := by
  cases h with
  | infinity s => exact .infinity s
  | finite hlog he => exact .finite hlog (by omega)

theorem Normalized.neg (h : Normalized least u) : Normalized least u.neg := by
  cases h with
  | infinity s => exact .infinity _
  | finite hlog he => exact .finite hlog he

/-! ### Rounding -/

theorem mantissa_shiftRight (x : ExtendedMantissa) (k : Nat) :
    (x >>> k).mantissa = x.mantissa / 2 ^ k := by
  show (k.repeat ExtendedMantissa.shiftRightOne x).mantissa = _
  induction k with
  | zero => exact (Nat.div_one _).symm
  | succ k ih =>
    show (k.repeat ExtendedMantissa.shiftRightOne x).mantissa / 2 = _
    rw [ih, Nat.div_div_eq_div_mul, pow_succ]

theorem mantissa_le_roundedMantissa (x : ExtendedMantissa) : x.mantissa ≤ x.roundedMantissa := by
  obtain ⟨m, roundBit, stickyBit⟩ := x
  cases roundBit <;> cases stickyBit
  · exact Nat.le_refl m
  · exact Nat.le_refl m
  · exact Nat.le_add_right m (m % 2)
  · exact Nat.le_succ m

/-- A mantissa of at least 53 bits loses those below the first 53. -/
theorem shiftToTargetExponent_log2 {m : Nat} {e : Int} {x : ExtendedMantissa} {e' : Int}
    (hlog : 52 ≤ m.log2) (he : -1074 ≤ e)
    (h : shiftToTargetExponent .binary64 m e .exact = (x, e')) :
    x.mantissa.log2 = 52 ∧ e ≤ e' := by
  have htarget : Format.binary64.targetExponent (Float.Model.totalExponent m e) =
      (m.log2 : Int) - 52 + e := by
    show max ((m.log2 : Int) + 1 + e - 53) (-1074) = _
    omega
  have hshift : ((m.log2 : Int) - 52 + e - e).toNat = m.log2 - 52 := by omega
  simp only [shiftToTargetExponent, shiftToExponent, htarget, hshift, Prod.mk.injEq] at h
  obtain ⟨rfl, rfl⟩ := h
  refine ⟨?_, by omega⟩
  rw [mantissa_shiftRight]
  show (m / 2 ^ (m.log2 - 52)).log2 = 52
  rw [Nat.log2_eq_log_two, Nat.log_div_base_pow, ← Nat.log2_eq_log_two]
  omega

theorem log2_le_log2 {m n : Nat} (h : m ≤ n) : m.log2 ≤ n.log2 := by
  rw [Nat.log2_eq_log_two, Nat.log2_eq_log_two]
  exact Nat.log_mono_right h

theorem normalized_roundWithAccuracy (s : Sign) {m : Nat} {e : Int} (hlog : 52 ≤ m.log2)
    (hleast : -1074 ≤ least) (he : least ≤ e) :
    Normalized least (roundWithAccuracy .binary64 s m e .exact) := by
  obtain ⟨x, e', hx⟩ : ∃ x e', shiftToTargetExponent .binary64 m e .exact = (x, e') := ⟨_, _, rfl⟩
  obtain ⟨hxlog, he'⟩ := shiftToTargetExponent_log2 hlog (hleast.trans he) hx
  -- Rounding up may carry into a 54th bit, which the second shift drops again.
  have hround : 52 ≤ x.roundedMantissa.log2 :=
    hxlog.ge.trans (log2_le_log2 (mantissa_le_roundedMantissa x))
  obtain ⟨y, e'', hy⟩ : ∃ y e'',
    shiftToTargetExponent .binary64 x.roundedMantissa e' .exact = (y, e'') := ⟨_, _, rfl⟩
  obtain ⟨hylog, he''⟩ := shiftToTargetExponent_log2 hround (by omega) hy
  have hne : y.mantissa ≠ 0 := by
    intro hzero
    rw [hzero] at hylog
    cases hylog
  simp only [roundWithAccuracy, hx, hy, dif_neg hne]
  exact .finite hylog (by omega)

/-! ### Packing -/

theorem log2_append {k : Nat} (m : BitVec k) : (1#1 ++ m).toNat.log2 = k := by
  have hleading : 2 ^ k ≤ (1#1 ++ m).toNat := by
    rw [BitVec.toNat_append, BitVec.toNat_ofNat, Nat.shiftLeft_eq]
    simpa using Nat.left_le_or
  have hlt : (1#1 ++ m).toNat < 2 ^ (k + 1) := Nat.add_comm 1 k ▸ (1#1 ++ m).isLt
  have hpos := Nat.two_pow_pos k
  exact (Nat.log2_eq_iff (by omega)).2 ⟨hleading, hlt⟩

theorem unpack_packComponents (spec : Format) (s : Sign) {x : BitVec spec.exponentBits}
    (m : BitVec spec.mantissaBitsWithoutImplicit) (hmax : x ≠ -BitVec.ofNat _ 1)
    (hzero : x ≠ BitVec.ofNat _ 0) :
    unpack spec (packComponents spec s x m) =
      .finite (Sign.ofBitVec (unpackSign (packComponents spec s x m))) (1#1 ++ m).toNat
        (x.toNat - (spec.exponentBias + spec.mantissaBitsWithoutImplicit)) (by simp) := by
  simp only [unpack, unpackMantissa_packComponents, unpackExponent_packComponents, if_neg hmax,
    if_neg hzero]

theorem normalized_unpack (s : Sign) {x : BitVec Format.binary64.exponentBits}
    (m : BitVec Format.binary64.mantissaBitsWithoutImplicit) (hpos : 0 < x.toNat)
    (hfits : x.toNat < 2047) (hle : least + 1075 ≤ x.toNat) :
    Normalized least (unpack .binary64 (packComponents .binary64 s x m)) := by
  have hmax : x ≠ -BitVec.ofNat Format.binary64.exponentBits 1 := by
    rintro rfl
    exact absurd hfits (by decide)
  have hzero : x ≠ BitVec.ofNat Format.binary64.exponentBits 0 := by
    rintro rfl
    exact absurd hpos (by decide)
  rw [unpack_packComponents .binary64 s m hmax hzero]
  have hexp : least ≤ (x.toNat : Int) - (1023 + 52) := by omega
  exact .finite (log2_append m) hexp

theorem Normalized.unpack_pack (h : Normalized least u) (hleast : -1074 ≤ least) :
    Normalized least (unpack .binary64 (pack .binary64 u)) := by
  cases h with
  | infinity s => cases s <;> exact .infinity _
  | @finite s m e hm hlog he =>
    have hbias : (Format.binary64.exponentBias : Int) = 1023 := rfl
    have hbits : (Format.binary64.mantissaBitsWithoutImplicit : Int) = 52 := rfl
    have hpow : 2 ^ Format.binary64.exponentBits = 2048 := rfl
    have hleading : m.log2 + 1 = Format.binary64.mantissaBits := by rw [hlog]; rfl
    rw [pack]
    dsimp only
    rw [hbias, hbits, hpow, if_pos hleading]
    split
    · cases s <;> exact .infinity _
    · rename_i hfits
      have hexp : (BitVec.ofNat Format.binary64.exponentBits (e + 1023 + 52).toNat).toNat =
          (e + 1023 + 52).toNat := Nat.mod_eq_of_lt (by rw [hpow]; omega)
      apply normalized_unpack <;> rw [hexp] <;> omega

/-! ### Integers -/

theorem log2_add_le {m : Nat} (h : 0 < m) (k : Nat) : m.log2 + k ≤ (m * 2 ^ k).log2 := by
  have hpos : 0 < m * 2 ^ k := Nat.mul_pos h (Nat.two_pow_pos k)
  rw [Nat.le_log2 hpos.ne', pow_add]
  exact Nat.mul_le_mul_right _ (Nat.log2_self_le h.ne')

theorem normalized_round (s : Sign) {n : Nat} (h : 0 < n) :
    Normalized (-52) (Float.Model.UnpackedFloat.round .binary64 s n 0) := by
  have htarget : Format.binary64.targetExponent (Float.Model.totalExponent n 0) =
      (n.log2 : Int) - 52 := by
    show max ((n.log2 : Int) + 1 + 0 - 53) (-1074) = _
    omega
  simp only [Float.Model.UnpackedFloat.round, decreaseExponent, htarget]
  refine normalized_roundWithAccuracy s ?_ (by decide) (by omega)
  have hlog := log2_add_le h (0 - ((n.log2 : Int) - 52)).toNat
  rw [Nat.shiftLeft_eq]
  omega

theorem Normalized.mul {least' : Int} {v : Float.Model.UnpackedFloat} (hu : Normalized least u)
    (hv : Normalized least' v) (hleast : -1074 ≤ least + least') :
    Normalized (least + least') (mul .binary64 u v) := by
  cases hu with
  | infinity s => cases hv <;> exact .infinity _
  | @finite s m e hm hlog he =>
    cases hv with
    | infinity s' => exact .infinity _
    | @finite s' m' e' hm' hlog' he' =>
      refine normalized_roundWithAccuracy _ ?_ hleast (by omega)
      exact hlog.ge.trans (log2_le_log2 (Nat.le_mul_of_pos_right m hm'))

theorem normalized_ofUInt64 {n : UInt64} (h : 0 < n.toNat) :
    Normalized (-52) (ofUInt64 .binary64 n) := by
  have hcompare : compare (n.toNat : Int) 0 = .gt := Int.compare_eq_gt.2 (by omega)
  show Normalized (-52) (Float.Model.UnpackedFloat.normalize .binary64 n.toNat 0 .positive)
  unfold Float.Model.UnpackedFloat.normalize
  rw [hcompare]
  exact normalized_round .positive h

theorem ofScientific_zero (spec : Format) {n : Nat} (h : 0 < n) :
    ofScientific spec n 0 =
      roundWithAccuracy spec .positive (n * 2 ^ spec.mantissaBits) (-spec.mantissaBits) .exact := by
  have hpow : (0 : Int) < 2 ^ spec.exponentBits := by positivity
  have hhuge : ¬ (0 : Int) > 2 ^ spec.exponentBits := by omega
  have htiny : ¬ (0 : Int) < -((2 : Int) ^ spec.exponentBits + n.log2) := by omega
  simp only [ofScientific, dif_neg h.ne', if_neg hhuge, if_neg htiny, if_pos (Int.le_refl 0)]
  show roundWithAccuracy spec .positive (n <<< spec.mantissaBits * 1) (-spec.mantissaBits + 0)
    .exact = _
  rw [Nat.shiftLeft_eq, Nat.mul_one, Int.add_zero]

theorem normalized_ofScientific {n : Nat} (h : 0 < n) :
    Normalized (-53) (ofScientific .binary64 n 0) := by
  have hlog := log2_add_le h Format.binary64.mantissaBits
  have hbits : Format.binary64.mantissaBits = 53 := rfl
  rw [ofScientific_zero .binary64 h]
  exact normalized_roundWithAccuracy .positive (by omega) (by decide) (by omega)

/-- A number of up to 53 bits is converted by itself and multiplied by one, a larger one as it
stands. -/
theorem normalized_ofNat {n : Nat} (h : 0 < n) :
    Normalized (-1074) (Float.ofNat n).toModel.unpack := by
  show Normalized (-1074) (Float.ofScientific n false 0).toModel.unpack
  unfold Float.ofScientific
  split
  · rename_i hsmall
    have hn : n.toUInt64.toNat = n := Nat.mod_eq_of_lt (by omega)
    have hword : Normalized (-52) n.toUInt64.toFloat.toModel.unpack :=
      (normalized_ofUInt64 (hn.symm ▸ h)).unpack_pack (by decide)
    have hone : Normalized (-52) (Float.exactlyRepresentablePowersOfTen[0]).toModel.unpack :=
      .finite rfl (by decide)
    exact ((hword.mul hone (by decide)).unpack_pack (by decide)).mono (by decide)
  · exact ((normalized_ofScientific h).unpack_pack (by decide)).mono (by decide)

theorem normalized_ofInt {n : Int} (h : n ≠ 0) :
    Normalized (-1074) (Float.ofInt n).toModel.unpack := by
  cases n with
  | ofNat n => exact normalized_ofNat (Nat.pos_of_ne_zero fun hzero => h (congrArg Int.ofNat hzero))
  | negSucc n => exact (normalized_ofNat (Nat.succ_pos n)).neg.unpack_pack (by decide)

theorem Normalized.beq_zero (h : Normalized least u) : u.beq (.zero .positive) = false := by
  cases h with
  | infinity s => cases s <;> rfl
  | @finite s => cases s <;> rfl

/-- Only zero is converted to zero. -/
theorem ofInt_beq_zero (n : Int) : (Float.ofInt n == 0.0) = decide (n = 0) := by
  by_cases h : n = 0
  · subst h
    rfl
  · rw [decide_eq_false h]
    exact (normalized_ofInt h).beq_zero

end Quarry.Numeral
