import EndlessRemix.Proofs.Number.Order

/-!
# Numbers that are not below zero

Sums and products of doubles that are not below zero are not below zero, and neither is a root or an
absolute value of any double at all, also where one of them is infinite or no number. What is not
below zero lifts no sum below its other part.
-/

namespace EndlessRemix

open Float.Model (Format UnpackedFloat)
open Float.Model.UnpackedFloat

namespace Double

/-! ## Signs of parts -/

/-- The parts of a number below zero. -/
def Negative : UnpackedFloat → Prop
  | .infinity .negative | .finite .negative _ _ _ => True
  | _ => False

/-- A double is below zero if its parts say so. -/
theorem lt_zero_iff (x : Float) : x < 0 ↔ Negative (unpacked x) := by
  have hzero : unpacked 0 = .zero .positive := rfl
  rw [lt_iff, hzero]
  cases unpacked x with
  | notANumber => exact iff_of_false Bool.false_ne_true id
  | zero s => exact iff_of_false Bool.false_ne_true id
  | infinity s =>
    cases s with
    | negative => exact iff_of_true rfl trivial
    | positive => exact iff_of_false Bool.false_ne_true id
  | finite s m e hm =>
    cases s with
    | negative => exact iff_of_true rfl trivial
    | positive => exact iff_of_false Bool.false_ne_true id

lemma positive_of_infinity {s : Sign} (h : ¬Negative (.infinity s)) : s = .positive := by
  cases s with
  | negative => exact absurd trivial h
  | positive => rfl

lemma positive_of_finite {s : Sign} {m : ℕ} {e : ℤ} {hm : 0 < m}
    (h : ¬Negative (.finite s m e hm)) : s = .positive := by
  cases s with
  | negative => exact absurd trivial h
  | positive => rfl

/-- Packing keeps the sign. -/
lemma not_negative_packed {u : UnpackedFloat} (h : ¬Negative u) :
    ¬Negative (unpacked (packed u)) := by
  show ¬Negative (unpack .binary64 (pack .binary64 u))
  have hparts : ∀ (E : BitVec 11) (M : BitVec 52),
      ¬Negative (unpack .binary64 (packComponents .binary64 .positive E M)) := by
    intro E M
    rw [unpack_packComponents]
    split_ifs <;> exact id
  cases u with
  | notANumber => exact id
  | zero s => cases s <;> exact id
  | infinity s =>
    obtain rfl := positive_of_infinity h
    exact id
  | finite s m e hm =>
    obtain rfl := positive_of_finite h
    rw [pack_finite]
    split_ifs <;> exact hparts _ _

lemma not_negative_roundWithAccuracy (m : ℕ) (e : ℤ) (acc : Accuracy) :
    ¬Negative (roundWithAccuracy .binary64 .positive m e acc) := by
  unfold roundWithAccuracy
  dsimp only
  split_ifs <;> exact id

/-! ## Operations -/

/-- Positive parts are added by rounding positive parts. -/
lemma exists_add_positive {m n : ℕ} (e f : ℤ) (hm : 0 < m) (hn : 0 < n) :
    ∃ (k : ℕ) (g : ℤ) (acc : Accuracy),
      add .binary64 (.finite .positive m e hm) (.finite .positive n f hn)
        = roundWithAccuracy .binary64 .positive k g acc := by
  have hsum : (0 : ℤ) < ((m <<< (e - Min.min e f).toNat : ℕ) : ℤ)
      + ((n <<< (f - Min.min e f).toNat : ℕ) : ℤ) := by
    rw [Nat.shiftLeft_eq, Nat.shiftLeft_eq]
    positivity
  simp only [add, decreaseExponent, Sign.apply]
  rw [Float.Model.UnpackedFloat.normalize, compare_gt_iff_gt.mpr hsum]
  exact ⟨_, _, _, rfl⟩

section

variable {x y : Float}

/-- A root is not below zero, whatever it is the root of. -/
theorem not_sqrt_lt_zero (x : Float) : ¬Scalar.sqrt x < 0 := by
  rw [lt_zero_iff]
  show ¬Negative (unpacked (packed ((unpacked x).sqrt .binary64)))
  apply not_negative_packed
  cases unpacked x with
  | notANumber => exact id
  | zero s => exact id
  | infinity s => cases s <;> exact id
  | finite s m e hm =>
    cases s with
    | negative => exact id
    | positive => exact not_negative_roundWithAccuracy _ _ _

/-- Nor is an absolute value. -/
theorem not_abs_lt_zero (x : Float) : ¬Scalar.abs x < 0 := by
  rw [lt_zero_iff]
  show ¬Negative (unpacked (packed (unpacked x).abs))
  apply not_negative_packed
  cases unpacked x <;> exact id

/-- A product of numbers that are not below zero is not below zero. -/
theorem not_mul_lt_zero (hx : ¬x < 0) (hy : ¬y < 0) : ¬x * y < 0 := by
  rw [lt_zero_iff] at hx hy ⊢
  show ¬Negative (unpacked (packed ((unpacked x).mul .binary64 (unpacked y))))
  apply not_negative_packed
  generalize unpacked x = u, unpacked y = v at *
  cases u with
  | notANumber => cases v <;> exact id
  | zero s => cases v <;> exact id
  | infinity s =>
    obtain rfl := positive_of_infinity hx
    cases v with
    | infinity t =>
      obtain rfl := positive_of_infinity hy
      exact id
    | finite t =>
      obtain rfl := positive_of_finite hy
      exact id
    | _ => exact id
  | finite s m e hm =>
    obtain rfl := positive_of_finite hx
    cases v with
    | infinity t =>
      obtain rfl := positive_of_infinity hy
      exact id
    | finite t =>
      obtain rfl := positive_of_finite hy
      exact not_negative_roundWithAccuracy _ _ _
    | _ => exact id

/-- A sum of numbers that are not below zero is not below zero. -/
theorem not_add_lt_zero (hx : ¬x < 0) (hy : ¬y < 0) : ¬x + y < 0 := by
  rw [lt_zero_iff] at hx hy ⊢
  show ¬Negative (unpacked (packed ((unpacked x).add .binary64 (unpacked y))))
  apply not_negative_packed
  generalize unpacked x = u, unpacked y = v at *
  cases u with
  | notANumber => cases v <;> exact id
  | zero s => cases v with
    | zero t => cases s <;> cases t <;> exact id
    | _ => exact hy
  | infinity s =>
    obtain rfl := positive_of_infinity hx
    cases v with
    | infinity t =>
      obtain rfl := positive_of_infinity hy
      exact id
    | _ => exact id
  | finite s m e hm =>
    obtain rfl := positive_of_finite hx
    cases v with
    | finite t n f hn =>
      obtain rfl := positive_of_finite hy
      obtain ⟨_, _, _, hsum⟩ := exists_add_positive e f hm hn
      rw [hsum]
      exact not_negative_roundWithAccuracy _ _ _
    | notANumber => exact id
    | zero t => exact id
    | infinity t => exact hy

/-! ## Sums and order -/

/-- What is not below zero is no number, or at least zero. -/
lemma atLeast_zero_or (h : ¬x < 0) : unpacked x = .notANumber ∨ AtLeast x 0 := by
  rw [lt_zero_iff] at h
  unfold AtLeast value?
  cases hu : unpacked x with
  | notANumber => exact .inl rfl
  | zero s => exact .inr (.inl ⟨0, rfl, le_rfl⟩)
  | infinity s =>
    obtain rfl := positive_of_infinity (hu ▸ h)
    exact .inr (.inr rfl)
  | finite s m e hm =>
    obtain rfl := positive_of_finite (hu ▸ h)
    exact .inr (.inl ⟨_, rfl, (positive_value_pos hm e).le⟩)

/-- A sum whose parts are canonical has these parts. -/
lemma unpacked_add {u : UnpackedFloat} (hc : Canonical u)
    (h : (unpacked x).add .binary64 (unpacked y) = u) : unpacked (x + y) = u := by
  show unpacked (packed ((unpacked x).add .binary64 (unpacked y))) = u
  rw [h, unpacked_packed hc]

lemma unpacked_notANumber_add (hx : unpacked x = .notANumber) (y : Float) :
    unpacked (x + y) = .notANumber := by
  refine unpacked_add trivial ?_
  rw [hx]
  cases unpacked y <;> rfl

/-- The largest infinity takes in what is finite. -/
lemma unpacked_infinity_add {b : ℚ} (hx : unpacked x = .infinity .positive)
    (hy : value? y = some b) : unpacked (x + y) = .infinity .positive := by
  refine unpacked_add trivial ?_
  rw [hx]
  unfold value? at hy
  cases hv : unpacked y with
  | notANumber => rw [hv] at hy; cases hy
  | infinity t => rw [hv] at hy; cases hy
  | zero t => rfl
  | finite t n f hn => rfl

/-- The largest infinity takes in what is at least zero. -/
lemma unpacked_add_infinity (hx : AtLeast x 0) (hy : unpacked y = .infinity .positive) :
    unpacked (x + y) = .infinity .positive := by
  refine unpacked_add trivial ?_
  rw [hy]
  rcases hx with ⟨a, ha, -⟩ | hinf
  · unfold value? at ha
    cases hu : unpacked x with
    | notANumber => rw [hu] at ha; cases ha
    | infinity s => rw [hu] at ha; cases ha
    | zero s => rfl
    | finite s m e hm => rfl
  · rw [hinf]
    rfl

/-- What is no number is below nothing. -/
lemma not_notANumber_lt (hx : unpacked x = .notANumber) : ¬x < y := by
  rw [lt_iff, hx]
  cases unpacked y <;> exact Bool.false_ne_true

/-- Nothing is below the smallest infinity. -/
lemma not_lt_negInfinity (hy : unpacked y = .infinity .negative) : ¬x < y := by
  rw [lt_iff, hy]
  cases unpacked x with
  | infinity s => cases s <;> exact Bool.false_ne_true
  | finite s => cases s <;> exact Bool.false_ne_true
  | _ => exact Bool.false_ne_true

/-- What is not below zero lifts no sum below its other part. -/
theorem not_add_lt {t : Float} (hx : ¬x < 0) (hle : t ≤ y) : ¬x + y < t := by
  rcases atLeast_zero_or hx with hnan | hx
  · exact not_notANumber_lt (unpacked_notANumber_add hnan y)
  rcases le_cases hle with ⟨ht, -⟩ | ⟨hy, -⟩ | ⟨b, c, ht, hy, hbc⟩
  · exact not_lt_negInfinity ht
  · exact not_infinity_lt (unpacked_add_infinity hx hy)
  · rcases hx with ⟨a, ha, ha0⟩ | hinf
    · rcases atLeast_add ha hy hy (by linarith) with ⟨q, hq, hcq⟩ | hsum
      · rw [lt_iff_of_value hq ht]
        linarith
      · exact not_infinity_lt hsum
    · exact not_infinity_lt (unpacked_infinity_add hinf hy)

end

end Double

end EndlessRemix
