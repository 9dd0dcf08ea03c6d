import EndlessRemix.Proofs.Number.Integer

/-!
# Products in range

Rounding changes the exponent of a number by little, so a product of doubles that is far from the
largest double is a double again, and not an infinity. Numbers at or above zero stay so, or become
the largest infinity, which no rounding and no positive factor brings back.
-/

namespace EndlessRemix

open Float.Model (Format UnpackedFloat)
open Float.Model.UnpackedFloat

namespace Double

/-- Shifting a mantissa to its place raises the exponent to that place at most. -/
lemma snd_shiftToTargetExponent (m : ℕ) (e : ℤ) :
    (shiftToTargetExponent .binary64 m e .exact).2 = Max.max e (lastPlace m e) := by
  simp only [shiftToTargetExponent, shiftToExponent, targetExponent_eq]
  omega

/-- Places that are shifted out make a mantissa smaller. -/
lemma mantissa_repeat_shiftRightOne_le (x : ExtendedMantissa) (n : ℕ) :
    (Nat.repeat ExtendedMantissa.shiftRightOne n x).mantissa ≤ x.mantissa := by
  induction n with
  | zero => exact le_rfl
  | succ n ih => exact (Nat.div_le_self _ 2).trans ih

/-- Rounding raises a mantissa by one at most. -/
lemma roundedMantissa_le (x : ExtendedMantissa) : x.roundedMantissa ≤ x.mantissa + 1 := by
  obtain ⟨m, r, t⟩ := x
  cases r <;> cases t <;>
    simp only [ExtendedMantissa.roundedMantissa, ExtendedMantissa.accuracy,
      Accuracy.roundToNearestEven] <;> omega

/-- Finite parts with an exponent in range are packed as a finite double. -/
lemma exists_value_packed {s : Sign} {m : ℕ} {e : ℤ} (hm : 0 < m) (he : e < 972) :
    ∃ q, value? (packed (.finite s m e hm)) = some q := by
  have hparts : ∀ (E : BitVec 11) (M : BitVec 52), E ≠ -1#11 →
      ∃ q, valueOf (unpack .binary64 (packComponents .binary64 s E M)) = some q := by
    intro E M hE
    rw [unpack_packComponents, if_neg hE]
    split_ifs <;> exact ⟨_, rfl⟩
  show ∃ q, valueOf (unpack .binary64 (pack .binary64 (.finite s m e hm))) = some q
  rw [pack_finite, if_neg (by omega)]
  split_ifs with hlog
  · apply hparts
    rw [ne_eq, ← BitVec.toNat_inj, toNat_neg_one, BitVec.toNat_ofNat]
    omega
  · exact hparts _ _ (by decide)

/-- Rounding a number that is not too large gives a finite double. -/
lemma exists_value_roundWithAccuracy {s : Sign} {m : ℕ} {e : ℤ} (hm : m < 2 ^ 106)
    (hsize : (m.log2 : ℤ) + e ≤ 200) :
    ∃ q, value? (packed (roundWithAccuracy .binary64 s m e .exact)) = some q := by
  have hlog : m.log2 ≤ 105 := by
    rcases Nat.eq_zero_or_pos m with rfl | hpos
    · decide
    · exact Nat.lt_succ_iff.mp ((Nat.log2_lt hpos.ne').mpr hm)
  have hrounded : (shiftToTargetExponent .binary64 m e .exact).1.roundedMantissa ≤ m + 1 :=
    (roundedMantissa_le _).trans
      (Nat.succ_le_succ (mantissa_repeat_shiftRightOne_le ⟨m, false, false⟩ _))
  have hfirst := snd_shiftToTargetExponent m e
  unfold roundWithAccuracy
  generalize shiftToTargetExponent .binary64 m e .exact = first at *
  dsimp only
  split_ifs with hzero
  · exact ⟨0, value?_packed_zero s⟩
  · apply exists_value_packed
    have hlog' : first.1.roundedMantissa.log2 ≤ 106 := by
      have hlt : first.1.roundedMantissa < 2 ^ 107 := by omega
      rcases Nat.eq_zero_or_pos first.1.roundedMantissa with h0 | hpos
      · rw [h0]
        decide
      · exact Nat.lt_succ_iff.mp ((Nat.log2_lt hpos.ne').mpr hlt)
    rw [snd_shiftToTargetExponent, hfirst]
    unfold lastPlace
    omega

/-- A product of finite doubles that is not too large is finite. -/
theorem exists_value_mul {x y : Float} {a b : ℚ} (hx : value? x = some a) (hy : value? y = some b)
    (h : |a * b| < 2 ^ 200) : ∃ q, value? (x * y) = some q := by
  show ∃ q, value? (packed ((unpacked x).mul .binary64 (unpacked y))) = some q
  have hcx := canonical_unpacked x
  have hcy := canonical_unpacked y
  unfold value? at hx hy
  generalize unpacked x = u, unpacked y = v at *
  rcases mul_cases hx hy with ⟨-, hzero⟩ | ⟨s, t, m, n, e, f, hm, hn, rfl, rfl⟩
  · exact ⟨0, hzero⟩
  · have hm53 : m < 2 ^ 53 := hcx.1
    have hn53 : n < 2 ^ 53 := hcy.1
    apply exists_value_roundWithAccuracy
    · calc m * n < 2 ^ 53 * 2 ^ 53 := Nat.mul_lt_mul'' hm53 hn53
        _ = 2 ^ 106 := by norm_num
    · -- the leading place of the product is below the bound on its size
      have hsize : (2 : ℚ) ^ (((m * n).log2 : ℤ) + (e + f)) < 2 ^ (200 : ℤ) := by
        calc (2 : ℚ) ^ (((m * n).log2 : ℤ) + (e + f))
            = ((2 ^ (m * n).log2 : ℕ) : ℚ) * 2 ^ (e + f) := by
              rw [zpow_add₀ (by norm_num), zpow_natCast, Nat.cast_pow, Nat.cast_ofNat]
          _ ≤ ((m * n : ℕ) : ℚ) * 2 ^ (e + f) := by
              have hle := Nat.log2_self_le (Nat.mul_pos hm hn).ne'
              gcongr
          _ = |a * b| := by
              rw [← Option.some.inj hx, ← Option.some.inj hy, abs_mul, abs_apply_mul,
                abs_apply_mul, zpow_add₀ (by norm_num), Nat.cast_mul]
              ring
          _ < 2 ^ 200 := h
          _ = 2 ^ (200 : ℤ) := by norm_cast
      exact ((zpow_lt_zpow_iff_right₀ (by norm_num)).mp hsize).le

/-! ## The largest infinity -/

section

variable {x y : Float} {a b : ℚ}

/-- A positive factor leaves the largest infinity as it is. -/
lemma unpacked_mul_infinity (hx : unpacked x = .infinity .positive) (hy : value? y = some b)
    (hb : 0 < b) : unpacked (x * y) = .infinity .positive := by
  show unpacked (packed ((unpacked x).mul .binary64 (unpacked y))) = _
  rw [hx]
  unfold value? at hy
  generalize unpacked y = v at *
  cases v with
  | notANumber => cases hy
  | infinity t => cases hy
  | zero t => exact absurd (Option.some.inj hy) hb.ne
  | finite t n f hn =>
    obtain rfl := eq_positive_of_nonneg hy hb.le
    have hparts : Float.Model.UnpackedFloat.mul .binary64 (.infinity .positive)
        (.finite .positive n f hn) = .infinity .positive := rfl
    rw [hparts]
    rfl

/-- Rounding leaves the largest infinity as it is. -/
lemma unpacked_round_infinity (h : unpacked x = .infinity .positive) :
    unpacked (Scalar.round x) = .infinity .positive := by
  show unpacked (ofDatum (datum x).round.datum) = _
  rw [datum_eq, h]
  rfl

/-- The whole part of the largest infinity is infinite. -/
lemma whole_infinity (h : unpacked x = .infinity .positive) : Scalar.whole x = .posInf := by
  show (datum x).truncate = _
  rw [datum_eq, h]
  rfl

end

end Double

end EndlessRemix
