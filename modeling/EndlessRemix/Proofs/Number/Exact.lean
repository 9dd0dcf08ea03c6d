import EndlessRemix.Proofs.Number.Value
import EndlessRemix.Proofs.Number.Word

/-!
# Exact results

Rounding changes no number that a double can hold. So integers below `2 ^ 53` are added and
subtracted exactly, a count of things is the double of that value, and rounding a double to a whole
number gives an integer.
-/

namespace EndlessRemix

open Float.Model (Format UnpackedFloat)
open Float.Model.UnpackedFloat

namespace Double

/-! ## Rounding -/

/-- Canonical parts are those that a word of eight bytes holds. -/
lemma canonical_iff_holds {s : Sign} {m : ℕ} {e : ℤ} {hm : 0 < m} :
    Canonical (.finite s m e hm) ↔ WordFormat.double.Holds m e := by
  have htop : (WordFormat.double.topField : ℤ) = 2047 := rfl
  have hleast : WordFormat.double.leastExponent = -1074 := rfl
  constructor
  · rintro ⟨hlt, hfull, hle, hge⟩
    exact ⟨hlt, hfull, hle, by omega⟩
  · rintro ⟨hlt, hfull, hle, hge⟩
    exact ⟨hlt, hfull, hle, by omega⟩

/-- Zeros that are shifted out leave no trace. -/
lemma repeat_shiftRightOne (m n : ℕ) :
    Nat.repeat ExtendedMantissa.shiftRightOne n ⟨m * 2 ^ n, false, false⟩ = ⟨m, false, false⟩ := by
  induction n generalizing m with
  | zero => simp [Nat.repeat]
  | succ n ih =>
    have h : m * 2 ^ (n + 1) = (m * 2) * 2 ^ n := by ring
    rw [Nat.repeat, h, ih]
    simp [ExtendedMantissa.shiftRightOne]

lemma shiftToExponent_mul_two_pow (m n : ℕ) (e : ℤ) :
    shiftToExponent (m * 2 ^ n) (e - n) .exact e = (⟨m, false, false⟩, e) := by
  have h : (e - (e - (n : ℤ))).toNat = n := by omega
  unfold shiftToExponent
  rw [h]
  exact Prod.ext (repeat_shiftRightOne m n) (sub_add_cancel e (n : ℤ))

/-- The exponent of the last place that a number keeps. -/
def lastPlace (m : ℕ) (e : ℤ) : ℤ := Max.max ((m.log2 : ℤ) + e - 52) (-1074)

lemma targetExponent_eq (m : ℕ) (e : ℤ) :
    Format.binary64.targetExponent (Float.Model.totalExponent m e) = lastPlace m e := by
  have hmin : Format.binary64.minExponent = -1074 := rfl
  have hbits : ((Format.binary64.mantissaBits : ℕ) : ℤ) = 53 := rfl
  rw [Format.targetExponent, Float.Model.totalExponent, lastPlace, hmin, hbits]
  omega

/-- It is the same however long the mantissa is written. -/
lemma lastPlace_mul_two_pow {m : ℕ} (hm : 0 < m) (n : ℕ) (e : ℤ) :
    lastPlace (m * 2 ^ n) (e - n) = lastPlace m e := by
  rw [lastPlace, lastPlace, log2_mul_two_pow hm]
  congr 1
  push_cast
  ring

section

variable {s : Sign} {m : ℕ} {e : ℤ} {hm : 0 < m}

/-- The exponent of canonical parts is that of the last of 53 places, or the least one. -/
lemma lastPlace_of_canonical (h : Canonical (.finite s m e hm)) : lastPlace m e = e :=
  (canonical_iff_holds.mp h).lastPlace_eq hm

/-- The exponent to round at is the canonical one. -/
lemma targetExponent_of_canonical (h : Canonical (.finite s m e hm)) (n : ℕ) :
    Format.binary64.targetExponent (Float.Model.totalExponent (m * 2 ^ n) (e - n)) = e := by
  rw [targetExponent_eq, lastPlace_mul_two_pow hm, lastPlace_of_canonical h]

lemma shiftToTargetExponent_of_canonical (h : Canonical (.finite s m e hm)) (n : ℕ) :
    shiftToTargetExponent .binary64 (m * 2 ^ n) (e - n) .exact = (⟨m, false, false⟩, e) := by
  rw [shiftToTargetExponent, targetExponent_of_canonical h, shiftToExponent_mul_two_pow]

/-- Rounding canonical parts, written with a longer mantissa, gives these parts. -/
lemma roundWithAccuracy_of_canonical (h : Canonical (.finite s m e hm)) (n : ℕ) :
    roundWithAccuracy .binary64 s (m * 2 ^ n) (e - n) .exact = .finite s m e hm := by
  have h2 : shiftToTargetExponent .binary64 m e .exact = (⟨m, false, false⟩, e) := by
    simpa using shiftToTargetExponent_of_canonical h 0
  have hr : (⟨m, false, false⟩ : ExtendedMantissa).roundedMantissa = m := rfl
  unfold roundWithAccuracy
  simp only [shiftToTargetExponent_of_canonical h n, hr, h2, hm.ne', dite_false]

/-- Rounding a number that canonical parts stand for gives these parts. -/
theorem round_of_canonical (h : Canonical (.finite s m e hm)) {n : ℕ} {f : ℤ}
    (hv : (n : ℚ) * 2 ^ f = m * 2 ^ e) :
    Float.Model.UnpackedFloat.round .binary64 s n f = .finite s m e hm := by
  rcases shift_cases hv with ⟨k, rfl, rfl⟩ | ⟨k, rfl, rfl⟩
  · have hk : (e - (k : ℤ) - e).toNat = 0 := by omega
    rw [Float.Model.UnpackedFloat.round, targetExponent_of_canonical h]
    simp only [decreaseExponent, hk, Nat.shiftLeft_zero, Nat.cast_zero, sub_zero]
    exact roundWithAccuracy_of_canonical h k
  · have hn : 0 < n := Nat.pos_of_mul_pos_right hm
    have ht : Format.binary64.targetExponent (Float.Model.totalExponent n f) = f - k := by
      rw [targetExponent_eq, ← lastPlace_mul_two_pow hn k f, lastPlace_of_canonical h]
    have hk : (f - (f - (k : ℤ))).toNat = k := by omega
    rw [Float.Model.UnpackedFloat.round, ht]
    simp only [decreaseExponent, hk, Nat.shiftLeft_eq]
    simpa using roundWithAccuracy_of_canonical h 0

end

/-- A word is unpacked as it is. -/
theorem unpacked_ofBits (b : UInt64) : unpacked (.ofBits b) = unpack .binary64 b.toBitVec :=
  unpack_pack (canonical_unpack b.toBitVec)

/-! ## Words of numbers -/

/-- The parts of a nonzero finite number are those that it is written with. -/
lemma eq_finite_of_datumOf {v : UnpackedFloat} {s : Sign} {m : ℕ} {e : ℤ} (hm : 0 < m)
    (h : datumOf v = .finite (s == .negative) m e) : v = .finite s m e hm := by
  cases v with
  | notANumber => cases h
  | infinity t => cases h
  | zero t => exact absurd (Datum.finite.inj h).2.1.symm hm.ne'
  | finite t n f hn =>
    obtain ⟨hs, rfl, rfl⟩ := Datum.finite.inj h
    cases s <;> cases t <;> first | rfl | cases hs

/-- Equal nonzero values have the same sign and the same magnitude. -/
lemma sign_eq_of_value_eq {s t : Sign} {m n : ℕ} {e f : ℤ} (hm : 0 < m) (hn : 0 < n)
    (h : ((s.apply m : ℤ) : ℚ) * 2 ^ e = (t.apply n : ℤ) * 2 ^ f) :
    s = t ∧ (m : ℚ) * 2 ^ e = n * 2 ^ f := by
  have hm' : (0 : ℚ) < m * 2 ^ e := by positivity
  have hn' : (0 : ℚ) < n * 2 ^ f := by positivity
  cases s <;> cases t <;> simp only [Sign.apply] at h <;> push_cast at h
  · exact ⟨rfl, by linarith⟩
  · linarith
  · linarith
  · exact ⟨rfl, h⟩

lemma apply_ne_zero (s : Sign) {m : ℕ} (hm : 0 < m) : s.apply (m : ℤ) ≠ 0 := by
  cases s <;> simp only [Sign.apply] <;> omega

/-- A double is the one nearest to its own value, however that is written. -/
theorem ofDatum_of_value {x : Float} {s : Sign} {n : ℕ} {f : ℤ} (hn : 0 < n)
    (h : value? x = some (((s.apply n : ℤ) : ℚ) * 2 ^ f)) :
    ofDatum (.finite (s == .negative) n f) = x := by
  have hc := canonical_unpacked x
  apply unpacked_injective
  unfold value? at h
  generalize unpacked x = u at *
  cases u with
  | notANumber => cases h
  | infinity s => cases h
  | zero t =>
    have h0 : (0 : ℚ) = (s.apply n : ℤ) * 2 ^ f := Option.some.inj h
    have h2 : (2 : ℚ) ^ f ≠ 0 := by positivity
    exact absurd h0.symm (mul_ne_zero (by exact_mod_cast apply_ne_zero s hn) h2)
  | finite t m e hm =>
    obtain ⟨rfl, hv⟩ := sign_eq_of_value_eq hm hn (Option.some.inj h)
    have hholds := canonical_iff_holds.mp hc
    have hlt : WordFormat.double.encode (.finite (t == .negative) n f) < 2 ^ 64 :=
      hholds.encode_lt hm hv.symm _
    have hdecode := hholds.decode_encode hm hv.symm (t == .negative)
    have hbits : (WordFormat.double.encode (.finite (t == .negative) n f)).toUInt64.toBitVec.toNat
        = WordFormat.double.encode (.finite (t == .negative) n f) := Nat.mod_eq_of_lt hlt
    rw [← hbits, decode_eq] at hdecode
    rw [ofDatum, unpacked_ofBits]
    exact eq_finite_of_datumOf hm hdecode

/-- A nonzero integer is a sign and a size. -/
lemma datum_int {k : ℤ} (hk : k ≠ 0) :
    ∃ s : Sign, (Whole.int k).datum = .finite (s == .negative) k.natAbs 0
      ∧ s.apply (k.natAbs : ℤ) = k := by
  rcases lt_or_gt_of_ne hk with h | h
  · refine ⟨.negative, ?_, ?_⟩
    · rw [Whole.datum, decide_eq_true h]
      rfl
    · rw [Sign.apply]
      omega
  · refine ⟨.positive, ?_, ?_⟩
    · rw [Whole.datum, decide_eq_false h.not_gt]
      rfl
    · rw [Sign.apply]
      omega

/-- An integer that some double has as its value is encoded exactly. -/
theorem value?_ofDatum_int {x : Float} {k : ℤ} (h : value? x = some (k : ℚ)) :
    value? (ofDatum (Whole.int k).datum) = some (k : ℚ) := by
  by_cases hk : k = 0
  · rw [hk]
    rfl
  · obtain ⟨s, hdatum, hs⟩ := datum_int hk
    rw [hdatum, ofDatum_of_value (Int.natAbs_pos.mpr hk), h]
    rw [h, hs, zpow_zero, mul_one]

end Double

end EndlessRemix
