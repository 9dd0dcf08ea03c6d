import EndlessRemix.Proofs.Number.Packing

/-!
# The value of a double

A finite double stands for a rational number. Doubles are compared like their values, the smaller
and the larger of two doubles are among the two, and truncation finds an integer value.
-/

namespace EndlessRemix

open Float.Model (UnpackedFloat)
open Float.Model.UnpackedFloat (Sign)

namespace Double

/-- The value of given parts, if they are finite. -/
def valueOf : UnpackedFloat → Option ℚ
  | .zero _ => some 0
  | .finite s m e _ => some ((s.apply m : ℤ) * 2 ^ e)
  | _ => none

/-- The value of a double, if it is finite. -/
def value? (x : Float) : Option ℚ := valueOf (unpacked x)

/-- A double is finite if it has a value. -/
lemma isFinite_iff (x : Float) : Scalar.isFinite x = true ↔ ∃ q, value? x = some q := by
  show (unpacked x).isFinite = true ↔ _
  unfold value?
  cases unpacked x with
  | notANumber => exact iff_of_false Bool.false_ne_true (by rintro ⟨q, h⟩; cases h)
  | infinity s => exact iff_of_false Bool.false_ne_true (by rintro ⟨q, h⟩; cases h)
  | zero s => exact iff_of_true rfl ⟨_, rfl⟩
  | finite s m e hm => exact iff_of_true rfl ⟨_, rfl⟩

/-! ## Order -/

theorem mantissa_lt_of_exponent_lt {m n : ℕ} {e f : ℤ} (hm : m < 2 ^ 53) (hn : 2 ^ 52 ≤ n)
    (h : e < f) : (m : ℚ) * 2 ^ e < n * 2 ^ f := by
  have hm' : (m : ℚ) < 2 ^ 53 := by exact_mod_cast hm
  have hn' : (2 : ℚ) ^ 52 ≤ n := by exact_mod_cast hn
  have he : (0 : ℚ) < 2 ^ e := by positivity
  calc (m : ℚ) * 2 ^ e < 2 ^ 53 * 2 ^ e := mul_lt_mul_of_pos_right hm' he
    _ = 2 ^ 52 * 2 ^ (e + 1) := by rw [zpow_add_one₀ (by norm_num)]; ring
    _ ≤ 2 ^ 52 * 2 ^ f := by
      apply mul_le_mul_of_nonneg_left _ (by norm_num)
      exact zpow_le_zpow_right₀ (by norm_num) (by omega)
    _ ≤ n * 2 ^ f := mul_le_mul_of_nonneg_right hn' (by positivity)

/-- Canonical parts are compared like the magnitudes that they stand for. -/
theorem compare_parts {s t : Sign} {m n : ℕ} {e f : ℤ} {hm : 0 < m} {hn : 0 < n}
    (hx : Canonical (.finite s m e hm)) (hy : Canonical (.finite t n f hn)) :
    (compare e f).then (compare m n) = compare ((m : ℚ) * 2 ^ e) (n * 2 ^ f) := by
  obtain ⟨hm53, hme, he, -⟩ := hx
  obtain ⟨hn53, hnf, hf, -⟩ := hy
  rcases lt_trichotomy e f with h | rfl | h
  · rw [compare_lt_iff_lt.mpr h, compare_lt_iff_lt.mpr
      (mantissa_lt_of_exponent_lt hm53 (hnf.resolve_right (by omega)) h)]
    rfl
  · have he2 : (0 : ℚ) < 2 ^ e := by positivity
    rw [compare_eq_iff_eq.mpr rfl]
    show compare m n = _
    rcases lt_trichotomy m n with h | rfl | h
    · rw [compare_lt_iff_lt.mpr h, compare_lt_iff_lt.mpr]
      exact mul_lt_mul_of_pos_right (by exact_mod_cast h) he2
    · rw [compare_eq_iff_eq.mpr rfl, compare_eq_iff_eq.mpr rfl]
    · rw [compare_gt_iff_gt.mpr h, compare_gt_iff_gt.mpr]
      exact mul_lt_mul_of_pos_right (by exact_mod_cast h) he2
  · rw [compare_gt_iff_gt.mpr h, compare_gt_iff_gt.mpr
      (mantissa_lt_of_exponent_lt hn53 (hme.resolve_right (by omega)) h)]
    rfl

lemma compare_neg_neg (a b : ℚ) : compare (-a) (-b) = (compare a b).swap := by
  rcases lt_trichotomy a b with h | rfl | h
  · rw [compare_lt_iff_lt.mpr h, compare_gt_iff_gt.mpr (neg_lt_neg h)]
    rfl
  · rw [compare_eq_iff_eq.mpr rfl, compare_eq_iff_eq.mpr rfl]
    rfl
  · rw [compare_gt_iff_gt.mpr h, compare_lt_iff_lt.mpr (neg_lt_neg h)]
    rfl

/-- Parts without a minus sign stand for a number above zero. -/
lemma positive_value_pos {m : ℕ} (hm : 0 < m) (e : ℤ) :
    0 < ((Sign.apply .positive m : ℤ) : ℚ) * 2 ^ e := by
  show (0 : ℚ) < (m : ℤ) * 2 ^ e
  positivity

/-- Parts with one stand for a number below zero. -/
lemma negative_value_neg {m : ℕ} (hm : 0 < m) (e : ℤ) :
    ((Sign.apply .negative m : ℤ) : ℚ) * 2 ^ e < 0 := by
  have hpos : (0 : ℚ) < m * 2 ^ e := by positivity
  show ((-(m : ℤ) : ℤ) : ℚ) * 2 ^ e < 0
  push_cast
  linarith

/-- Canonical finite parts are compared like their values. -/
theorem compare_of_valueOf {u v : UnpackedFloat} {a b : ℚ} (hu : Canonical u) (hv : Canonical v)
    (ha : valueOf u = some a) (hb : valueOf v = some b) : u.compare v = some (compare a b) := by
  cases u with
  | notANumber => cases ha
  | infinity s => cases ha
  | zero s =>
    obtain rfl : 0 = a := Option.some.inj ha
    cases v with
    | notANumber => cases hb
    | infinity s => cases hb
    | zero t =>
      obtain rfl : 0 = b := Option.some.inj hb
      rfl
    | finite t n f hn =>
      obtain rfl := Option.some.inj hb
      cases t with
      | positive => exact congrArg some (compare_lt_iff_lt.mpr (positive_value_pos hn f)).symm
      | negative => exact congrArg some (compare_gt_iff_gt.mpr (negative_value_neg hn f)).symm
  | finite s m e hm =>
    obtain rfl := Option.some.inj ha
    cases v with
    | notANumber => cases hb
    | infinity s => cases hb
    | zero t =>
      obtain rfl : 0 = b := Option.some.inj hb
      cases s with
      | positive => exact congrArg some (compare_gt_iff_gt.mpr (positive_value_pos hm e)).symm
      | negative => exact congrArg some (compare_lt_iff_lt.mpr (negative_value_neg hm e)).symm
    | finite t n f hn =>
      obtain rfl := Option.some.inj hb
      have hc := compare_parts hu hv
      cases s with
      | positive =>
        cases t with
        | positive => exact congrArg some hc
        | negative =>
          have hlt := (negative_value_neg hn f).trans (positive_value_pos hm e)
          exact congrArg some (compare_gt_iff_gt.mpr hlt).symm
      | negative =>
        cases t with
        | positive =>
          have hlt := (negative_value_neg hm e).trans (positive_value_pos hn f)
          exact congrArg some (compare_lt_iff_lt.mpr hlt).symm
        | negative =>
          show some ((compare e f).then (compare m n)).swap
            = some (compare (((-(m : ℤ) : ℤ) : ℚ) * 2 ^ e) (((-(n : ℤ) : ℤ) : ℚ) * 2 ^ f))
          rw [hc, ← compare_neg_neg]
          push_cast
          simp only [neg_mul]

lemma lt_iff (x y : Float) : x < y ↔ (unpacked x).lt (unpacked y) = true := by
  show decide ((unpacked x).lt (unpacked y) = true) = true ↔ _
  rw [decide_eq_true_iff]

lemma beq_iff (x y : Float) : (x == y) = true ↔ (unpacked x).beq (unpacked y) = true := Iff.rfl

lemma le_iff (x y : Float) : x ≤ y ↔ (unpacked x).le (unpacked y) = true := by
  show decide ((unpacked x).le (unpacked y) = true) = true ↔ _
  rw [decide_eq_true_iff]

lemma le_of_lt {x y : Float} (h : x < y) : x ≤ y := by
  rw [lt_iff, Float.Model.UnpackedFloat.lt, beq_iff_eq] at h
  rw [le_iff, Float.Model.UnpackedFloat.le, h]
  rfl

section

variable {x y z : Float} {a b : ℚ}

theorem lt_iff_of_value (hx : value? x = some a) (hy : value? y = some b) : x < y ↔ a < b := by
  rw [lt_iff, Float.Model.UnpackedFloat.lt,
    compare_of_valueOf (canonical_unpacked x) (canonical_unpacked y) hx hy]
  simp [compare_lt_iff_lt]

theorem le_iff_of_value (hx : value? x = some a) (hy : value? y = some b) : x ≤ y ↔ a ≤ b := by
  rw [le_iff, Float.Model.UnpackedFloat.le,
    compare_of_valueOf (canonical_unpacked x) (canonical_unpacked y) hx hy]
  simp [Ordering.isLE_iff_ne_gt, compare_gt_iff_gt]

/-- What is at or above a finite double is finite or the largest infinity. -/
lemma exists_value_of_le (hx : value? x = some a) (hxy : x ≤ y) :
    (∃ q, value? y = some q) ∨ unpacked y = .infinity .positive := by
  rw [le_iff] at hxy
  unfold value? at hx ⊢
  generalize unpacked x = u, unpacked y = v at *
  cases v with
  | notANumber => cases u <;> cases hxy
  | infinity s =>
    cases s with
    | positive => exact .inr rfl
    | negative => cases u with
      | finite t => cases t <;> cases hxy
      | zero t => cases hxy
      | _ => cases hx
  | zero s => exact .inl ⟨_, rfl⟩
  | finite s m e hm => exact .inl ⟨_, rfl⟩

/-- Nothing is above the largest infinity. -/
lemma not_infinity_lt (hx : unpacked x = .infinity .positive) : ¬x < y := by
  rw [lt_iff, hx]
  cases unpacked y with
  | infinity t => cases t <;> exact Bool.false_ne_true
  | _ => exact Bool.false_ne_true

/-- A finite double is below the largest infinity. -/
lemma lt_infinity (hx : value? x = some a) (hy : unpacked y = .infinity .positive) : x < y := by
  rw [lt_iff, hy]
  unfold value? at hx
  generalize unpacked x = u at *
  cases u with
  | notANumber => cases hx
  | infinity s => cases hx
  | zero s => rfl
  | finite s m e hm => cases s <;> rfl

/-- What is at or above a finite double and below another double is finite. -/
theorem exists_value_of_lt (hx : value? x = some a) (hxy : x ≤ y) (hyz : y < z) :
    ∃ q, value? y = some q :=
  (exists_value_of_le hx hxy).resolve_right fun h => not_infinity_lt h hyz

/-- Of two doubles in order both are numbers. Unless one of them is the infinity on its side, both
are finite and have ordered values. -/
theorem le_cases (h : x ≤ y) :
    (unpacked x = .infinity .negative ∧ unpacked y ≠ .notANumber)
      ∨ (unpacked y = .infinity .positive ∧ unpacked x ≠ .notANumber)
      ∨ ∃ a b, value? x = some a ∧ value? y = some b ∧ a ≤ b := by
  rcases hx : value? x with _ | a
  · have hle := (le_iff x y).mp h
    unfold value? at hx
    generalize unpacked x = u, unpacked y = v at *
    cases u with
    | notANumber => cases v <;> cases hle
    | infinity s =>
      cases s with
      | negative =>
        refine .inl ⟨rfl, ?_⟩
        rintro rfl
        cases hle
      | positive => cases v with
        | infinity t => cases t <;> first | exact .inr (.inl ⟨rfl, by simp⟩) | cases hle
        | finite t => cases t <;> cases hle
        | _ => cases hle
    | zero s => cases hx
    | finite s m e hm => cases hx
  · right
    rcases exists_value_of_le hx h with ⟨b, hy⟩ | hy
    · exact .inr ⟨a, b, rfl, hy, (le_iff_of_value hx hy).mp h⟩
    · refine .inl ⟨hy, ?_⟩
      rintro hnan
      rw [value?, hnan] at hx
      cases hx

/-- What lies between two finite doubles is finite. -/
theorem exists_value_of_between (hx : value? x = some a) (hz : value? z = some b) (hxy : x ≤ y)
    (hyz : y ≤ z) : ∃ q, value? y = some q := by
  refine (exists_value_of_le hx hxy).resolve_right fun h => ?_
  rw [le_iff, h] at hyz
  unfold value? at hz
  generalize unpacked z = w at *
  cases w with
  | notANumber => cases hz
  | infinity s => cases hz
  | zero s => cases hyz
  | finite s m e hm => cases s <;> cases hyz

end

/-! ## The smaller and the larger -/

/-- Exchanged parts compare the other way around. -/
lemma compare_swap (u v : UnpackedFloat) : v.compare u = (u.compare v).map Ordering.swap := by
  cases u with
  | notANumber => cases v <;> rfl
  | infinity s => cases s <;> cases v <;> first | rfl | (rename_i t; cases t <;> rfl)
  | zero s => cases v with
    | infinity t => cases t <;> rfl
    | finite t => cases t <;> rfl
    | _ => rfl
  | finite s m e hm => cases v with
    | notANumber => rfl
    | infinity t => cases s <;> cases t <;> rfl
    | zero t => cases s <;> rfl
    | finite t n f hn =>
      have he : compare f e = (compare e f).swap := Std.OrientedCmp.eq_swap
      have hm : compare n m = (compare m n).swap := Std.OrientedCmp.eq_swap
      cases s <;> cases t <;> simp [Float.Model.UnpackedFloat.compare, he, hm, Ordering.swap_then]

/-- Only what is no number cannot be compared. -/
lemma compare_eq_none {u v : UnpackedFloat} (h : u.compare v = none) :
    u = .notANumber ∨ v = .notANumber := by
  cases u with
  | notANumber => exact .inl rfl
  | infinity s => cases v with
    | notANumber => exact .inr rfl
    | _ => cases s <;> cases h
  | zero s => cases v with
    | notANumber => exact .inr rfl
    | zero t => cases h
    | _ t => cases t <;> cases h
  | finite s => cases v with
    | notANumber => exact .inr rfl
    | zero t => cases s <;> cases h
    | _ t => cases s <;> cases t <;> cases h

/-- Two doubles are in order, or equal, or their sum is no number. -/
theorem order_cases (x y : Float) :
    x < y ∨ y < x ∨ (x == y) = true ∨ unpacked (x + y) = .notANumber := by
  rcases h : (unpacked x).compare (unpacked y) with _ | o
  · right; right; right
    have hadd : (unpacked x).add .binary64 (unpacked y) = .notANumber := by
      rcases compare_eq_none h with h | h
      · rw [h]
        rfl
      · rw [h]
        cases unpacked x <;> rfl
    show unpacked (packed ((unpacked x).add .binary64 (unpacked y))) = _
    rw [hadd]
    rfl
  · cases o with
    | lt =>
      left
      rw [lt_iff, Float.Model.UnpackedFloat.lt, h]
      rfl
    | gt =>
      right; left
      rw [lt_iff, Float.Model.UnpackedFloat.lt, compare_swap, h]
      rfl
    | eq =>
      right; right; left
      rw [beq_iff, Float.Model.UnpackedFloat.beq, h]
      rfl

/-- Equal doubles are the same, unless they are zeros. -/
lemma eq_or_zero_of_beq {x y : Float} (h : (x == y) = true) :
    x = y ∨ ∃ s t, unpacked x = .zero s ∧ unpacked y = .zero t := by
  rw [beq_iff, Float.Model.UnpackedFloat.beq] at h
  rw [← unpacked_injective.eq_iff]
  generalize unpacked x = u, unpacked y = v at *
  cases u with
  | notANumber => cases h
  | infinity s => cases v with
    | infinity t => cases s <;> cases t <;> first | exact .inl rfl | cases h
    | _ => cases s <;> cases h
  | zero s => cases v with
    | zero t => exact .inr ⟨s, t, rfl, rfl⟩
    | notANumber => cases h
    | _ t => cases t <;> cases h
  | finite s m e hm => cases v with
    | finite t n f hn =>
      left
      cases s <;> cases t <;> simp_all [Float.Model.UnpackedFloat.compare, Ordering.then_eq_eq]
    | notANumber => cases h
    | infinity t => cases s <;> cases t <;> cases h
    | zero t => cases s <;> cases h

section

variable {x y : Float} {a b q : ℚ}

/-- The sign of zero does not matter to the value. -/
lemma value?_or (h : (x == y) = true) : value? (.ofBits (x.toBits ||| y.toBits)) = value? x := by
  rcases eq_or_zero_of_beq h with rfl | ⟨s, t, hx, hy⟩
  · rw [UInt64.or_self, Float.ofBits_toBits]
  · rw [← packed_unpacked x, ← packed_unpacked y, hx, hy]
    cases s <;> cases t <;> rfl

lemma value?_and (h : (x == y) = true) : value? (.ofBits (x.toBits &&& y.toBits)) = value? x := by
  rcases eq_or_zero_of_beq h with rfl | ⟨s, t, hx, hy⟩
  · rw [UInt64.and_self, Float.ofBits_toBits]
  · rw [← packed_unpacked x, ← packed_unpacked y, hx, hy]
    cases s <;> cases t <;> rfl

/-- A finite smaller one of two doubles has the value of one of them. -/
theorem value?_of_min (h : value? (min x y) = some q) : value? x = some q ∨ value? y = some q := by
  unfold min at h
  split_ifs at h with h1 h2 h3
  · exact .inl h
  · exact .inr h
  · exact .inl (value?_or h3 ▸ h)
  · have hn := (order_cases x y).resolve_left h1 |>.resolve_left h2 |>.resolve_left h3
    rw [value?, hn] at h
    cases h

/-- A finite larger one of two doubles has the value of one of them. -/
theorem value?_of_max (h : value? (max x y) = some q) : value? x = some q ∨ value? y = some q := by
  unfold max at h
  split_ifs at h with h1 h2 h3
  · exact .inr h
  · exact .inl h
  · exact .inl (value?_and h3 ▸ h)
  · have hn := (order_cases x y).resolve_left h1 |>.resolve_left h2 |>.resolve_left h3
    rw [value?, hn] at h
    cases h

/-- Doubles with one value are equal. -/
lemma beq_of_value (hx : value? x = some a) (hy : value? y = some a) : (x == y) = true := by
  rw [beq_iff, Float.Model.UnpackedFloat.beq,
    compare_of_valueOf (canonical_unpacked x) (canonical_unpacked y) hx hy,
    compare_eq_iff_eq.mpr rfl]
  rfl

/-- The smaller of two finite doubles has the smaller value. -/
theorem value?_min (hx : value? x = some a) (hy : value? y = some b) :
    value? (min x y) = some (Min.min a b) := by
  unfold min
  rcases lt_trichotomy a b with h | rfl | h
  · rw [if_pos ((lt_iff_of_value hx hy).mpr h), hx, min_eq_left h.le]
  · rw [if_neg (mt (lt_iff_of_value hx hy).mp (lt_irrefl a)),
      if_neg (mt (lt_iff_of_value hy hx).mp (lt_irrefl a)), if_pos (beq_of_value hx hy),
      value?_or (beq_of_value hx hy), hx, min_self]
  · rw [if_neg (mt (lt_iff_of_value hx hy).mp h.not_gt), if_pos ((lt_iff_of_value hy hx).mpr h), hy,
      min_eq_right h.le]

/-- The larger of two finite doubles has the larger value. -/
theorem value?_max (hx : value? x = some a) (hy : value? y = some b) :
    value? (max x y) = some (Max.max a b) := by
  unfold max
  rcases lt_trichotomy a b with h | rfl | h
  · rw [if_pos ((lt_iff_of_value hx hy).mpr h), hy, max_eq_right h.le]
  · rw [if_neg (mt (lt_iff_of_value hx hy).mp (lt_irrefl a)),
      if_neg (mt (lt_iff_of_value hy hx).mp (lt_irrefl a)), if_pos (beq_of_value hx hy),
      value?_and (beq_of_value hx hy), hx, max_self]
  · rw [if_neg (mt (lt_iff_of_value hx hy).mp h.not_gt), if_pos ((lt_iff_of_value hy hx).mpr h), hx,
      max_eq_left h.le]

end

/-! ## Truncation -/

lemma signedMantissa_eq (s : Sign) (m : ℕ) :
    Datum.signedMantissa (s == .negative) m = s.apply m := by
  cases s <;> rfl

lemma exists_sign (negative : Bool) : ∃ s : Sign, negative = (s == .negative) := by
  cases negative
  · exact ⟨.positive, rfl⟩
  · exact ⟨.negative, rfl⟩

/-- Truncation leaves an integer as it is. -/
theorem whole_of_value {x : Float} {k : ℤ} (h : value? x = some (k : ℚ)) :
    Scalar.whole x = .int k := by
  show (datum x).truncate = .int k
  rw [datum_eq]
  unfold value? at h
  generalize unpacked x = u at *
  cases u with
  | notANumber => cases h
  | infinity s => cases h
  | zero s =>
    obtain rfl : 0 = k := by exact_mod_cast Option.some.inj h
    have hs : s.apply ((0 : ℕ) : ℤ) = 0 := by cases s <;> rfl
    simp only [datumOf, Datum.truncate, signedMantissa_eq, hs, Int.zero_tdiv, zero_mul, ite_self]
  | finite s m e hm =>
    have hk : ((s.apply m : ℤ) : ℚ) * 2 ^ e = k := Option.some.inj h
    simp only [datumOf, Datum.truncate, Nat.pow_eq, signedMantissa_eq]
    split_ifs with he
    · obtain ⟨n, rfl⟩ := Int.eq_ofNat_of_zero_le he
      rw [Int.toNat_natCast]
      exact congrArg Whole.int (by exact_mod_cast hk)
    · obtain ⟨n, rfl⟩ : ∃ n : ℕ, e = -n := ⟨(-e).toNat, by omega⟩
      have hm : (s.apply m : ℤ) = k * (2 ^ n : ℕ) := by
        have h2 : (2 : ℚ) ^ n ≠ 0 := by positivity
        rw [zpow_neg, zpow_natCast, mul_inv_eq_iff_eq_mul₀ h2] at hk
        exact_mod_cast hk
      rw [hm, neg_neg, Int.toNat_natCast, Int.mul_tdiv_cancel _ (by positivity)]

end Double

end EndlessRemix
