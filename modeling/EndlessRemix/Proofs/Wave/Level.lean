import EndlessRemix.Proofs.Audio.Sample
import EndlessRemix.Wave.Encode

/-!
# Two-byte levels

What a sample becomes when it is written with two bytes and read again. Writing counts 32768 levels
on the negative side and 32767 on the positive side, and reading divides by 32768 on both. So the
level that is written is off by half a level and, on the positive side, by up to one more; and a
positive level in the upper half comes back one lower when it is written again.
-/

namespace EndlessRemix

open Float.Model.UnpackedFloat (Sign)

/-! ## The level of a number -/

/-- The level that a number between −1 and 1 is written as. -/
def levelOf (v : ℚ) : ℤ := ⌊v * (if v < 0 then 32768 else 32767) + 1 / 2⌋

section

variable {v w : ℚ}

lemma levelOf_neg (h : v < 0) : levelOf v = ⌊v * 32768 + 1 / 2⌋ := by
  rw [levelOf, if_pos h]

lemma levelOf_nonneg (h : 0 ≤ v) : levelOf v = ⌊v * 32767 + 1 / 2⌋ := by
  rw [levelOf, if_neg h.not_gt]

/-- A level has two bytes. -/
lemma levelOf_mem (hlow : -1 ≤ v) (hhigh : v ≤ 1) : -32768 ≤ levelOf v ∧ levelOf v ≤ 32767 := by
  rcases lt_or_ge v 0 with h | h
  · rw [levelOf_neg h]
    constructor
    · rw [Int.le_floor]
      push_cast
      linarith
    · rw [Int.floor_le_iff]
      push_cast
      linarith
  · rw [levelOf_nonneg h]
    constructor
    · rw [Int.le_floor]
      push_cast
      linarith
    · rw [Int.floor_le_iff]
      push_cast
      linarith

/-- A level is at most one and a half levels away from the number. -/
lemma abs_levelOf_sub_le (hhigh : v ≤ 1) : |(levelOf v : ℚ) / 32768 - v| ≤ 3 / 2 / 32768 := by
  rcases lt_or_ge v 0 with h | h
  · have hle := Int.floor_le (v * 32768 + 1 / 2)
    have hlt := Int.lt_floor_add_one (v * 32768 + 1 / 2)
    rw [levelOf_neg h, abs_le]
    constructor <;> linarith
  · have hle := Int.floor_le (v * 32767 + 1 / 2)
    have hlt := Int.lt_floor_add_one (v * 32767 + 1 / 2)
    rw [levelOf_nonneg h, abs_le]
    constructor <;> linarith

/-- Levels are ordered like the numbers. -/
lemma levelOf_mono (h : v ≤ w) : levelOf v ≤ levelOf w := by
  rcases lt_or_ge w 0 with hw | hw
  · rw [levelOf_neg (h.trans_lt hw), levelOf_neg hw]
    exact Int.floor_le_floor (by linarith)
  · rcases lt_or_ge v 0 with hv | hv
    · -- zero has a level of its own between the sides
      calc levelOf v ≤ 0 := by
            rw [levelOf_neg hv, Int.floor_le_iff]
            push_cast
            linarith
        _ ≤ levelOf w := by
            rw [levelOf_nonneg hw, Int.le_floor]
            push_cast
            linarith
    · rw [levelOf_nonneg hv, levelOf_nonneg hw]
      exact Int.floor_le_floor (by linarith)

/-- A level that is read and written again stays, or becomes one lower in the upper half of the
positive side. -/
lemma levelOf_div {k : ℤ} (hhigh : k ≤ 32767) :
    levelOf ((k : ℚ) / 32768) = if k ≤ 16384 then k else k - 1 := by
  have hk : (k : ℚ) ≤ 32767 := by exact_mod_cast hhigh
  rcases lt_or_ge k 0 with h | h
  · have h0 : (k : ℚ) < 0 := by exact_mod_cast h
    rw [levelOf_neg (by linarith), if_pos (by omega), Int.floor_eq_iff]
    constructor <;> linarith
  · have h0 : (0 : ℚ) ≤ k := by exact_mod_cast h
    rw [levelOf_nonneg (by linarith), Int.floor_eq_iff]
    split_ifs with hhalf
    · have hle : (k : ℚ) ≤ 16384 := by exact_mod_cast hhalf
      constructor <;> linarith
    · have hlt : (16384 : ℚ) < k := by exact_mod_cast not_le.mp hhalf
      push_cast
      constructor <;> linarith

end

/-! ## The level of a datum -/

namespace Datum

/-- The comparison by which a size is found to reach one. -/
lemma one_le_size_iff (m : ℕ) (e : ℤ) :
    Nat.pow 2 (-e).toNat ≤ m * Nat.pow 2 e.toNat ↔ (1 : ℚ) ≤ m * 2 ^ e := by
  rcases le_total 0 e with he | he
  · obtain ⟨n, rfl⟩ := Int.eq_ofNat_of_zero_le he
    have hneg : (-(n : ℤ)).toNat = 0 := by omega
    rw [hneg, Int.toNat_natCast, zpow_natCast, Nat.pow_eq, Nat.pow_eq, pow_zero]
    exact_mod_cast Iff.rfl
  · obtain ⟨n, rfl⟩ : ∃ n : ℕ, e = -n := ⟨(-e).toNat, by omega⟩
    have hpos : (0 : ℚ) < 2 ^ n := by positivity
    have hneg : (-(n : ℤ)).toNat = 0 := by omega
    rw [neg_neg, hneg, Int.toNat_natCast, zpow_neg, zpow_natCast, Nat.pow_eq, Nat.pow_eq, pow_zero,
      mul_one, ← div_eq_mul_inv, one_le_div hpos]
    exact_mod_cast Iff.rfl

/-- What lies beyond one is clamped to one. -/
lemma value?_clampToUnit {d : Datum} {q : ℚ} (h : d.value? = some q) :
    d.clampToUnit.value? = some (max (-1) (min 1 q)) := by
  cases d with
  | notANumber => cases h
  | infinite negative => cases h
  | finite negative m e =>
    obtain rfl := Option.some.inj h
    have hsize : (0 : ℚ) ≤ m * 2 ^ e := by positivity
    simp only [clampToUnit, one_le_size_iff]
    split_ifs with hbeyond
    · cases negative
      · simp only [value?, signedMantissa, Bool.false_eq_true, if_false]
        push_cast
        rw [min_eq_left hbeyond, mul_one, max_eq_right (by norm_num)]
      · simp only [value?, signedMantissa, if_true]
        push_cast
        rw [mul_one, min_eq_right (by linarith), max_eq_left (by linarith)]
    · cases negative
      · simp only [value?, signedMantissa, Bool.false_eq_true, if_false]
        push_cast
        rw [min_eq_right (by linarith), max_eq_right (by linarith)]
      · simp only [value?, signedMantissa, if_true]
        push_cast
        rw [min_eq_right (by linarith), max_eq_right (by linarith)]

lemma value?_clampToUnit_infinite (negative : Bool) :
    (infinite negative).clampToUnit.value? = some (if negative then -1 else 1) := by
  cases negative <;> simp [clampToUnit, value?, signedMantissa]

lemma value?_scale {d : Datum} {q : ℚ} (h : d.value? = some q) (factor : ℕ) :
    (d.scale factor).value? = some (q * factor) := by
  cases d with
  | notANumber => cases h
  | infinite negative => cases h
  | finite negative m e =>
    obtain rfl := Option.some.inj h
    cases negative <;> simp only [scale, value?, signedMantissa] <;> push_cast <;> simp <;> ring

/-- The sign of a number decides how many levels are counted. -/
lemma level16_eq {d : Datum} {v : ℚ} (h : d.clampToUnit.value? = some v) :
    d.level16 = levelOf v := by
  rw [level16]
  generalize d.clampToUnit = clamped at *
  cases clamped with
  | notANumber => cases h
  | infinite negative => cases h
  | finite negative m e =>
    have hsize : (0 : ℚ) ≤ m * 2 ^ e := by positivity
    have hv := Option.some.inj h
    cases negative
    · simp only [signedMantissa, Bool.false_eq_true, if_false] at hv
      push_cast at hv
      rw [levelOf_nonneg (by linarith)]
      simp only [round_of_value (value?_scale h 32767)]
      rfl
    · simp only [signedMantissa, if_true] at hv
      push_cast at hv
      simp only [round_of_value (value?_scale h 32768)]
      rcases lt_or_eq_of_le (show v ≤ 0 by linarith) with hneg | rfl
      · rw [levelOf_neg hneg]
        rfl
      · norm_num [levelOf]

end Datum

/-! ## The level of a sample -/

/-- A level of so many bytes is a fraction of full scale. -/
lemma SampleEncoding.value?_fraction {width : ℕ} (hwidth : 1 ≤ width) (k : ℤ) :
    (SampleEncoding.fraction width k).value? = some ((k : ℚ) / 2 ^ (8 * width - 1)) := by
  have hplaces : (1 : ℤ) - 8 * width = -((8 * width - 1 : ℕ) : ℤ) := by omega
  rw [SampleEncoding.fraction, Datum.value?, Datum.signedMantissa_natAbs, hplaces, zpow_neg,
    zpow_natCast, div_eq_mul_inv]

namespace Sample

variable {s t : Sample} {v w : ℚ}

/-- A sample that is a number is clamped to a number between −1 and 1. -/
lemma exists_clamped (h : s.datum ≠ .notANumber) :
    ∃ v, s.datum.clampToUnit.value? = some v ∧ -1 ≤ v ∧ v ≤ 1 := by
  cases hd : s.datum with
  | notANumber => exact absurd hd h
  | infinite negative =>
    refine ⟨_, Datum.value?_clampToUnit_infinite negative, ?_⟩
    cases negative <;> norm_num
  | finite negative m e =>
    exact ⟨_, Datum.value?_clampToUnit rfl, le_max_left _ _,
      max_le (by norm_num) (min_le_left _ _)⟩

/-- The clamped number of a sample is the sample clamped in double precision. -/
lemma value?_clamped (s : Sample) :
    Double.value? (Double.max (-1) (Double.min 1 s.toFloat)) = s.datum.clampToUnit.value? := by
  cases hd : s.datum with
  | notANumber =>
    rw [toFloat, hd]
    decide +kernel
  | infinite negative =>
    rw [toFloat, hd, Datum.value?_clampToUnit_infinite]
    cases negative <;> decide +kernel
  | finite negative m e =>
    have hvalue : Double.value? s.toFloat = (Datum.finite negative m e).value? := by
      rw [value?_toFloat, hd]
    have hone : Double.value? (-1) = some (-1) := Double.value?_neg Double.value?_one
    rw [Datum.value?_clampToUnit rfl]
    exact Double.value?_max hone (Double.value?_min Double.value?_one hvalue)

/-- What is no number is silence. -/
lemma level16_of_notANumber (h : s.datum = .notANumber) : s.level16 = 0 := by
  rw [level16, h]
  rfl

/-- The level of a sample has two bytes. -/
theorem level16_mem (s : Sample) : -32768 ≤ s.level16 ∧ s.level16 ≤ 32767 := by
  by_cases h : s.datum = .notANumber
  · rw [level16_of_notANumber h]
    decide
  · obtain ⟨v, hv, hlow, hhigh⟩ := exists_clamped h
    rw [level16, Datum.level16_eq hv]
    exact levelOf_mem hlow hhigh

/-- Samples in order have levels in order. -/
theorem level16_mono (h : s.toFloat ≤ t.toFloat) : s.level16 ≤ t.level16 := by
  have hbetween : ∃ v w, s.datum.clampToUnit.value? = some v
      ∧ t.datum.clampToUnit.value? = some w ∧ v ≤ w := by
    rcases le_cases h with ⟨hs, ht⟩ | ⟨ht, hs⟩ | ⟨a, b, ha, hb, hab⟩
    · obtain ⟨w, hw, hlow, -⟩ := exists_clamped ht
      exact ⟨-1, w, hs ▸ Datum.value?_clampToUnit_infinite true, hw, hlow⟩
    · obtain ⟨v, hv, -, hhigh⟩ := exists_clamped hs
      exact ⟨v, 1, hv, ht ▸ Datum.value?_clampToUnit_infinite false, hhigh⟩
    · exact ⟨_, _, Datum.value?_clampToUnit ha, Datum.value?_clampToUnit hb,
        max_le_max le_rfl (min_le_min le_rfl hab)⟩
  obtain ⟨v, w, hv, hw, hvw⟩ := hbetween
  rw [level16, level16, Datum.level16_eq hv, Datum.level16_eq hw]
  exact levelOf_mono hvw

/-- The sample that is read where this one was written. -/
def quantized (s : Sample) : Sample := ofDatum (SampleEncoding.fraction 2 s.level16)

/-- A level is read exactly. -/
lemma value?_quantized (s : Sample) : s.quantized.datum.value? = some ((s.level16 : ℚ) / 32768) := by
  have hmem := s.level16_mem
  rw [quantized, SampleEncoding.fraction, value?_ofDatum (by omega) (by norm_num) (by norm_num)]
  have hvalue := SampleEncoding.value?_fraction (by norm_num : 1 ≤ 2) s.level16
  norm_num at hvalue
  exact hvalue

/-- Where it is written again, the level stays, or becomes one lower in the upper half of the
positive side. -/
theorem level16_quantized (s : Sample) :
    s.quantized.level16 = if s.level16 ≤ 16384 then s.level16 else s.level16 - 1 := by
  have hmem := s.level16_mem
  have hlow : (-32768 : ℚ) ≤ s.level16 := by exact_mod_cast hmem.1
  have hhigh : (s.level16 : ℚ) ≤ 32767 := by exact_mod_cast hmem.2
  have hvalue := Datum.value?_clampToUnit s.value?_quantized
  rw [min_eq_right (by linarith), max_eq_right (by linarith)] at hvalue
  rw [level16, Datum.level16_eq hvalue, levelOf_div hmem.2]

end Sample

end EndlessRemix
