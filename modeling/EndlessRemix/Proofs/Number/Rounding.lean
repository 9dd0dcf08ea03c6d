import EndlessRemix.Proofs.Number.Range

/-!
# The error of rounding

Sums, products and quotients of doubles are computed exactly up to two bits behind the mantissa, and
then rounded. `Cut` says what the two bits tell about the exact result. A rounded mantissa is off by
half a place at most, and has 53 places, so the error is at most `2 ^ -53` of the exact result as
long as this is far from the largest and the smallest doubles.
-/

namespace EndlessRemix

open Float.Model (Format UnpackedFloat)
open Float.Model.UnpackedFloat

/-! ## Nearness -/

section

variable {K : Type*} [Field K] [LinearOrder K]

/-- A number lies as near to another one as rounding brings it. -/
def Near (r q : K) : Prop := |r - q| ≤ |q| / 2 ^ 53

/-- A number is another one, not below zero, up to `n` relative errors. -/
def Within (n : ℕ) (r q : K) : Prop :=
  (1 - 1 / 2 ^ 53) ^ n * q ≤ r ∧ r ≤ (1 + 1 / 2 ^ 53) ^ n * q

/-- A number is zero, or far from the smallest and the largest doubles. -/
def InRange (q : K) : Prop := q = 0 ∨ 1 / 2 ^ 200 ≤ |q| ∧ |q| ≤ 2 ^ 200

/-- A number is zero, or above it and in range even after a few errors. -/
def Moderate (q : K) : Prop := q = 0 ∨ 1 / 2 ^ 100 ≤ q ∧ q ≤ 2 ^ 100

lemma near_refl [IsStrictOrderedRing K] (q : K) : Near q q := by
  unfold Near
  rw [sub_self, abs_zero]
  positivity

end

namespace Double

/-! ## Residual bits -/

/-- What a mantissa and its two residual bits tell about a number: the mantissa is its whole part,
the first bit says that the rest is at least one half, and the second that there is more to it. -/
def Cut (x : ExtendedMantissa) (v : ℚ) : Prop :=
  match x.roundBit, x.stickyBit with
  | false, false => v = x.mantissa
  | false, true => x.mantissa < v ∧ v < x.mantissa + 1 / 2
  | true, false => v = x.mantissa + 1 / 2
  | true, true => x.mantissa + 1 / 2 < v ∧ v < x.mantissa + 1

namespace Cut

variable {x : ExtendedMantissa} {v : ℚ}

lemma mantissa_le (h : Cut x v) : (x.mantissa : ℚ) ≤ v := by
  obtain ⟨m, r, t⟩ := x
  cases r <;> cases t <;> simp only [Cut] at h ⊢ <;> linarith

lemma lt_succ (h : Cut x v) : v < x.mantissa + 1 := by
  obtain ⟨m, r, t⟩ := x
  cases r <;> cases t <;> simp only [Cut] at h ⊢ <;> linarith

/-- A shift by one place halves the number. -/
lemma shiftRightOne (h : Cut x v) : Cut x.shiftRightOne (v / 2) := by
  obtain ⟨m, r, t⟩ := x
  have hm : ((m % 2 : ℕ) : ℚ) + 2 * ((m / 2 : ℕ) : ℚ) = m := by exact_mod_cast Nat.mod_add_div m 2
  rcases Nat.mod_two_eq_zero_or_one m with h2 | h2
  · rw [h2, Nat.cast_zero] at hm
    cases r <;> cases t <;> simp only [Cut, ExtendedMantissa.shiftRightOne, h2] at h ⊢ <;>
      simp <;> (try constructor) <;> linarith
  · rw [h2, Nat.cast_one] at hm
    cases r <;> cases t <;> simp only [Cut, ExtendedMantissa.shiftRightOne, h2] at h ⊢ <;>
      simp <;> (try constructor) <;> linarith

/-- A shift by several places divides it by a power of two. -/
lemma shiftRight (h : Cut x v) (n : ℕ) :
    Cut (Nat.repeat ExtendedMantissa.shiftRightOne n x) (v / 2 ^ n) := by
  induction n with
  | zero => simpa [Nat.repeat] using h
  | succ n ih =>
    have hv : v / 2 ^ (n + 1) = v / 2 ^ n / 2 := by rw [pow_succ, div_div]
    rw [hv, Nat.repeat]
    exact ih.shiftRightOne

/-- Rounding is off by half a place at most. -/
lemma abs_roundedMantissa_sub_le (h : Cut x v) : |(x.roundedMantissa : ℚ) - v| ≤ 1 / 2 := by
  obtain ⟨m, r, t⟩ := x
  rw [abs_le]
  have hm : m % 2 = 0 ∨ m % 2 = 1 := Nat.mod_two_eq_zero_or_one m
  cases r <;> cases t <;>
    simp only [Cut, ExtendedMantissa.roundedMantissa, ExtendedMantissa.accuracy,
      Accuracy.roundToNearestEven] at h ⊢
  · constructor <;> linarith
  · constructor <;> linarith
  · -- halfway between two mantissas either is as near
    rcases hm with hm | hm <;> rw [hm] <;> push_cast <;> constructor <;> linarith
  · push_cast
    constructor <;> linarith

/-- Halfway between two mantissas it is the even one. -/
lemma even_roundedMantissa (h : Cut x v) (htie : |(x.roundedMantissa : ℚ) - v| = 1 / 2) :
    Even x.roundedMantissa := by
  obtain ⟨m, r, t⟩ := x
  have hm : m % 2 = 0 ∨ m % 2 = 1 := Nat.mod_two_eq_zero_or_one m
  rw [Nat.even_iff]
  cases r <;> cases t <;>
    simp only [Cut, ExtendedMantissa.roundedMantissa, ExtendedMantissa.accuracy,
      Accuracy.roundToNearestEven] at h htie ⊢
  · rw [h, sub_self, abs_zero] at htie
    norm_num at htie
  · rw [abs_of_neg (by linarith)] at htie
    linarith
  · omega
  · push_cast at htie
    rw [abs_of_pos (by linarith)] at htie
    linarith

end Cut

/-- Nothing is left out of an integer. -/
lemma cut_exact (m : ℕ) : Cut (.ofMantissaAndAccuracy m .exact) m := rfl

/-- The remainder of a division decides the residual bits of the quotient. -/
lemma cut_fraction (m : ℕ) {num den : ℕ} (h : num < den) :
    Cut (.ofMantissaAndAccuracy m (accuracyOfFraction num den)) (m + num / den) := by
  have hden : (0 : ℚ) < den := by exact_mod_cast Nat.zero_lt_of_lt h
  have hlt : (num : ℚ) < den := by exact_mod_cast h
  unfold accuracyOfFraction
  by_cases hnum : num = 0
  · rw [if_pos hnum, hnum, Nat.cast_zero, zero_div, add_zero]
    exact cut_exact m
  · have hpos : (0 : ℚ) < num := by exact_mod_cast Nat.pos_of_ne_zero hnum
    rw [if_neg hnum]
    rcases lt_trichotomy (2 * num) den with hc | hc | hc
    · have hc' : (2 : ℚ) * num < den := by exact_mod_cast hc
      have hhalf : (num : ℚ) / den < 1 / 2 := by
        rw [div_lt_iff₀ hden]
        linarith
      rw [compare_lt_iff_lt.mpr hc]
      show (m : ℚ) < m + num / den ∧ (m : ℚ) + num / den < m + 1 / 2
      exact ⟨by linarith [div_pos hpos hden], by linarith⟩
    · have hc' : (2 : ℚ) * num = den := by exact_mod_cast hc
      rw [compare_eq_iff_eq.mpr hc]
      show (m : ℚ) + num / den = m + 1 / 2
      rw [← hc']
      field_simp
    · have hc' : (den : ℚ) < 2 * num := by exact_mod_cast hc
      have hhalf : 1 / 2 < (num : ℚ) / den := by
        rw [lt_div_iff₀ hden]
        linarith
      have hone : (num : ℚ) / den < 1 := (div_lt_one hden).mpr hlt
      rw [compare_gt_iff_gt.mpr hc]
      show (m : ℚ) + 1 / 2 < m + num / den ∧ (m : ℚ) + num / den < m + 1
      exact ⟨by linarith, by linarith⟩

/-! ## The place of rounding -/

/-- The leading place of a mantissa bounds the number that it was cut from. -/
lemma Cut.log2_bounds {m : ℕ} {acc : Accuracy} {v : ℚ} (hm : 0 < m)
    (h : Cut (.ofMantissaAndAccuracy m acc) v) : (2 : ℚ) ^ m.log2 ≤ v ∧ v < 2 ^ (m.log2 + 1) := by
  have hmantissa : (ExtendedMantissa.ofMantissaAndAccuracy m acc).mantissa = m := by
    rcases acc with _ | o
    · rfl
    · cases o <;> rfl
  have hlow : ((2 ^ m.log2 : ℕ) : ℚ) ≤ m := by exact_mod_cast Nat.log2_self_le hm.ne'
  have hhigh : ((m + 1 : ℕ) : ℚ) ≤ ((2 ^ (m.log2 + 1) : ℕ) : ℚ) := by
    exact_mod_cast (Nat.lt_log2_self : m < 2 ^ (m.log2 + 1))
  have hle := h.mantissa_le
  have hlt := h.lt_succ
  rw [hmantissa] at hle hlt
  push_cast at hlow hhigh
  exact ⟨hlow.trans hle, hlt.trans_le hhigh⟩

/-- The leading place of a number in the given range. -/
lemma log2_add_bounds {k : ℕ} {e : ℤ} {v : ℚ} (hlow : (2 : ℚ) ^ k ≤ v) (hhigh : v < 2 ^ (k + 1))
    (hmin : 1 / 2 ^ 200 ≤ v * 2 ^ e) (hmax : v * 2 ^ e ≤ 2 ^ 200) :
    -201 < (k : ℤ) + e ∧ (k : ℤ) + e ≤ 200 := by
  have he : (0 : ℚ) < 2 ^ e := by positivity
  have hk : ∀ n : ℕ, (2 : ℚ) ^ n * 2 ^ e = 2 ^ ((n : ℤ) + e) := by
    intro n
    rw [zpow_add₀ (by norm_num), zpow_natCast]
  have h1 : (2 : ℚ) ^ ((k : ℤ) + e) ≤ 2 ^ (200 : ℤ) := by
    rw [← hk]
    exact (mul_le_mul_of_nonneg_right hlow he.le).trans (by exact_mod_cast hmax)
  have h2 : (2 : ℚ) ^ (-200 : ℤ) < 2 ^ (((k + 1 : ℕ) : ℤ) + e) := by
    rw [← hk]
    calc (2 : ℚ) ^ (-200 : ℤ) = 1 / 2 ^ 200 := by norm_num
      _ ≤ v * 2 ^ e := hmin
      _ < 2 ^ (k + 1) * 2 ^ e := mul_lt_mul_of_pos_right hhigh he
  have h1 := (zpow_le_zpow_iff_right₀ (by norm_num)).mp h1
  have h2 := (zpow_lt_zpow_iff_right₀ (by norm_num)).mp h2
  omega

/-- A rounded mantissa is brought to its place without loss, even if it has one place more now. -/
lemma exists_second {r : ℕ} {e : ℤ} (hr : 0 < r) (hhigh : r ≤ 2 ^ 53)
    (hfull : 2 ^ 52 ≤ r ∨ e = -1074) (hmin : -1074 ≤ e) :
    ∃ (m : ℕ) (f : ℤ), 0 < m
      ∧ shiftToTargetExponent .binary64 r e .exact = (⟨m, false, false⟩, f)
      ∧ m < 2 ^ 53 ∧ (2 ^ 52 ≤ m ∨ f = -1074) ∧ -1074 ≤ f ∧ f ≤ e + 1
      ∧ (m : ℚ) * 2 ^ f = r * 2 ^ e := by
  rcases Nat.lt_or_eq_of_le hhigh with hlt | rfl
  · refine ⟨r, e, hr, ?_, hlt, hfull, hmin, by omega, rfl⟩
    have hlog : r.log2 < 53 := (Nat.log2_lt hr.ne').mpr hlt
    have hplace : lastPlace r e = e := by
      unfold lastPlace
      rcases hfull with hfull | rfl
      · have : 52 ≤ r.log2 := (Nat.le_log2 hr.ne').mpr hfull
        omega
      · omega
    rw [shiftToTargetExponent, targetExponent_eq, hplace]
    simpa using shiftToExponent_mul_two_pow r 0 e
  · -- the carry has made the mantissa one place longer
    refine ⟨2 ^ 52, e + 1, by norm_num, ?_, by norm_num, .inl le_rfl, by omega, le_rfl, ?_⟩
    · have hlog : (2 ^ 53).log2 = 53 := by rw [Nat.log2_two_pow]
      have hplace : lastPlace (2 ^ 53) e = e + 1 := by
        unfold lastPlace
        rw [hlog]
        omega
      have hshift := shiftToExponent_mul_two_pow (2 ^ 52) 1 (e + 1)
      rw [shiftToTargetExponent, targetExponent_eq, hplace]
      norm_num at hshift ⊢
      exact hshift
    · rw [zpow_add_one₀ (by norm_num)]
      push_cast
      ring

/-! ## The error -/

/-- A sign is a factor of size one. -/
lemma apply_eq_mul (s : Sign) (n : ℤ) : ((s.apply n : ℤ) : ℚ) = (s.apply 1 : ℤ) * n := by
  cases s <;> simp [Sign.apply]

/-- Canonical parts are packed as the number that they stand for, however this is written. -/
lemma value?_packed_of_eq {s : Sign} {m r : ℕ} {e f : ℤ} {hm : 0 < m}
    (hc : Canonical (.finite s m f hm)) (h : (m : ℚ) * 2 ^ f = r * 2 ^ e) :
    value? (packed (.finite s m f hm)) = some (((s.apply r : ℤ) : ℚ) * 2 ^ e) := by
  rw [value?, unpacked_packed hc, apply_eq_mul, mul_assoc, Int.cast_natCast, ← h, ← mul_assoc,
    ← Int.cast_natCast m, ← apply_eq_mul]
  rfl

lemma apply_one_mul (s t : Sign) : (s * t).apply 1 = s.apply 1 * t.apply 1 := by
  cases s <;> cases t <;> rfl

lemma apply_one_div (s t : Sign) : (s / t).apply 1 = s.apply 1 * t.apply 1 := by
  cases s <;> cases t <;> rfl

/-- A sign is its own inverse. -/
lemma inv_apply_one (s : Sign) : (((s.apply 1 : ℤ) : ℚ))⁻¹ = (s.apply 1 : ℤ) := by
  cases s <;> norm_num [Sign.apply]

lemma abs_apply_one (s : Sign) : |((s.apply 1 : ℤ) : ℚ)| = 1 := by
  cases s <;> simp [Sign.apply]

/-- The first shift leaves 53 places of a mantissa that has as many. -/
lemma shiftToTargetExponent_of_log2 {m k : ℕ} {e : ℤ} (acc : Accuracy) (hk : m.log2 = 52 + k)
    (hleast : -1074 ≤ e + k) :
    shiftToTargetExponent .binary64 m e acc
      = (Nat.repeat ExtendedMantissa.shiftRightOne k (.ofMantissaAndAccuracy m acc), e + k) := by
  have hshift : (Format.binary64.targetExponent (Float.Model.totalExponent m e) - e).toNat
      = k := by
    rw [targetExponent_eq, lastPlace]
    omega
  simp only [shiftToTargetExponent, shiftToExponent, hshift]
  rfl

/-- What was cut to 53 places is rounded to as many, or to the next power of two. -/
lemma Cut.roundedMantissa_mem {x : ExtendedMantissa} {v : ℚ} (h : Cut x v) (hlow : 2 ^ 52 ≤ v)
    (hhigh : v < 2 ^ 53) : 2 ^ 52 ≤ x.roundedMantissa ∧ x.roundedMantissa ≤ 2 ^ 53 := by
  obtain ⟨hbelow, habove⟩ := abs_le.mp h.abs_roundedMantissa_sub_le
  have hlt : ((2 ^ 52 : ℕ) : ℚ) < (x.roundedMantissa + 1 : ℕ) := by
    push_cast
    linarith
  have hlt' : (x.roundedMantissa : ℚ) < (2 ^ 53 + 1 : ℕ) := by
    push_cast
    linarith
  exact ⟨Nat.lt_succ_iff.mp (by exact_mod_cast hlt), Nat.lt_succ_iff.mp (by exact_mod_cast hlt')⟩

/-- Half a unit is `2 ^ -53` at most of what has 53 places before the point. -/
lemma near_units (s : Sign) {r : ℕ} {v : ℚ} (e : ℤ) (hlow : 2 ^ 52 ≤ v)
    (h : |(r : ℚ) - v| ≤ 1 / 2) :
    Near (((s.apply r : ℤ) : ℚ) * 2 ^ e) ((s.apply 1 : ℤ) * (v * 2 ^ e)) := by
  have he : (0 : ℚ) < 2 ^ e := by positivity
  have hv : 0 ≤ v := le_trans (by positivity) hlow
  rw [Near, apply_eq_mul, mul_assoc, ← mul_sub, ← sub_mul, abs_mul, abs_mul, abs_mul,
    abs_apply_one, one_mul, one_mul, abs_mul, abs_of_pos he, abs_of_nonneg hv, mul_div_right_comm]
  apply mul_le_mul_of_nonneg_right _ he.le
  rw [Int.cast_natCast]
  refine h.trans ?_
  rw [le_div_iff₀ (by norm_num)]
  linarith

/-- Rounding a number with enough places is off by `2 ^ -53` of it at most. -/
theorem near_roundWithAccuracy (s : Sign) {m : ℕ} {e : ℤ} {acc : Accuracy} {v : ℚ}
    (hlog : 52 ≤ m.log2) (h : Cut (.ofMantissaAndAccuracy m acc) v)
    (hmin : 1 / 2 ^ 200 ≤ v * 2 ^ e) (hmax : v * 2 ^ e ≤ 2 ^ 200) :
    ∃ r, value? (packed (roundWithAccuracy .binary64 s m e acc)) = some r
      ∧ Near r ((s.apply 1 : ℤ) * (v * 2 ^ e)) := by
  have hm : 0 < m := by
    rcases Nat.eq_zero_or_pos m with rfl | hpos
    · simp at hlog
    · exact hpos
  obtain ⟨hlow, hhigh⟩ := h.log2_bounds hm
  obtain ⟨hbottom, htop⟩ := log2_add_bounds hlow hhigh hmin hmax
  obtain ⟨k, hk⟩ : ∃ k, m.log2 = 52 + k := ⟨m.log2 - 52, by omega⟩
  have hleast : -1074 ≤ e + k := by omega
  have hfirst := shiftToTargetExponent_of_log2 acc hk hleast
  have hcut := h.shiftRight k
  have h2k : (0 : ℚ) < 2 ^ k := by positivity
  have hvlow : (2 : ℚ) ^ 52 ≤ v / 2 ^ k := by
    rw [le_div_iff₀ h2k, ← pow_add, ← hk]
    exact hlow
  have hvhigh : v / 2 ^ k < 2 ^ 53 := by
    rw [div_lt_iff₀ h2k, ← pow_add]
    exact hhigh.trans_le (pow_le_pow_right₀ (by norm_num) (by omega))
  have hv : v * 2 ^ e = v / 2 ^ k * 2 ^ (e + k) := by
    rw [zpow_add₀ (by norm_num), zpow_natCast]
    field_simp
  generalize Nat.repeat ExtendedMantissa.shiftRightOne k (.ofMantissaAndAccuracy m acc) = first at *
  obtain ⟨hrlow, hrhigh⟩ := hcut.roundedMantissa_mem hvlow hvhigh
  obtain ⟨m', f, hm', hsecond, hlt, hfull, hmin', hf, hvalue⟩ :=
    exists_second (by omega) hrhigh (.inl hrlow) hleast
  refine ⟨((s.apply first.roundedMantissa : ℤ) : ℚ) * 2 ^ (e + k), ?_, ?_⟩
  · unfold roundWithAccuracy
    simp only [hfirst, hsecond, hm'.ne', dite_false]
    exact value?_packed_of_eq ⟨hlt, hfull, hmin', by omega⟩ hvalue
  · rw [hv]
    exact near_units s (e + k) hvlow hcut.abs_roundedMantissa_sub_le

/-! ## Sums -/

/-- Rounding a number with any number of places is as near. -/
lemma near_round (s : Sign) {m : ℕ} {e : ℤ} (hm : 0 < m) (hmin : 1 / 2 ^ 200 ≤ (m : ℚ) * 2 ^ e)
    (hmax : (m : ℚ) * 2 ^ e ≤ 2 ^ 200) :
    ∃ r, value? (packed (Float.Model.UnpackedFloat.round .binary64 s m e)) = some r
      ∧ Near r ((s.apply 1 : ℤ) * (m * 2 ^ e)) := by
  obtain ⟨hlow, hhigh⟩ := (cut_exact m).log2_bounds hm
  obtain ⟨hbottom, htop⟩ := log2_add_bounds hlow hhigh hmin hmax
  obtain ⟨k, hk, hplaces⟩ : ∃ k : ℕ, (e - Format.binary64.targetExponent
      (Float.Model.totalExponent m e)).toNat = k ∧ 52 ≤ m.log2 + k := by
    refine ⟨_, rfl, ?_⟩
    rw [targetExponent_eq, lastPlace]
    omega
  have hv : ((m * 2 ^ k : ℕ) : ℚ) * 2 ^ (e - k) = m * 2 ^ e := by
    rw [zpow_sub₀ (by norm_num), zpow_natCast]
    push_cast
    field_simp
  rw [Float.Model.UnpackedFloat.round]
  simp only [decreaseExponent, hk, Nat.shiftLeft_eq]
  rw [← hv] at hmin hmax ⊢
  exact near_roundWithAccuracy s (by rw [log2_mul_two_pow hm]; exact hplaces) (cut_exact _) hmin hmax

/-- Rounding a signed number is as near. -/
lemma near_normalize {m : ℤ} {e : ℤ} {q : ℚ} (hq : (m : ℚ) * 2 ^ e = q) (h : InRange q) (s : Sign) :
    ∃ r, value? (packed (Float.Model.UnpackedFloat.normalize .binary64 m e s)) = some r
      ∧ Near r q := by
  rcases normalize_cases hq s with ⟨hzero, hparts⟩ | ⟨t, n, hn, hsize, hparts⟩
  · rw [hparts, hzero]
    exact ⟨0, value?_packed_zero s, near_refl 0⟩
  · have habs : |q| = n * 2 ^ e := by rw [← hsize, abs_apply_mul]
    have hne : q ≠ 0 := by
      rw [← abs_pos, habs]
      positivity
    obtain ⟨hmin, hmax⟩ := h.resolve_left hne
    rw [habs] at hmin hmax
    rw [hparts, ← hsize, apply_eq_mul, mul_assoc, Int.cast_natCast]
    exact near_round t hn hmin hmax

section

variable {x y : Float} {a b : ℚ}

/-- A sum in range is rounded to a double near to it. -/
theorem near_add (hx : value? x = some a) (hy : value? y = some b) (h : InRange (a + b)) :
    ∃ r, value? (x + y) = some r ∧ Near r (a + b) := by
  show ∃ r, value? (packed ((unpacked x).add .binary64 (unpacked y))) = some r ∧ _
  rcases add_cases (canonical_unpacked x) (canonical_unpacked y) hx hy with
    hexact | ⟨m, e, hsum, hparts⟩
  · exact ⟨_, hexact, near_refl _⟩
  · rw [hparts]
    exact near_normalize hsum h _

/-! ## Products -/

/-- A product in range has 52 places beside the leading one. -/
lemma log2_mul {s t : Sign} {m n : ℕ} {e f : ℤ} {hm : 0 < m} {hn : 0 < n}
    (hx : Canonical (.finite s m e hm)) (hy : Canonical (.finite t n f hn))
    (h : 1 / 2 ^ 200 ≤ ((m * n : ℕ) : ℚ) * 2 ^ (e + f)) : 52 ≤ (m * n).log2 := by
  obtain ⟨hm53, hme, -, -⟩ := hx
  obtain ⟨hn53, hnf, -, -⟩ := hy
  rw [Nat.le_log2 (Nat.mul_pos hm hn).ne']
  rcases hme with hm52 | rfl
  · exact hm52.trans (Nat.le_mul_of_pos_right _ hn)
  · rcases hnf with hn52 | rfl
    · exact hn52.trans (Nat.le_mul_of_pos_left _ hm)
    · -- a product of two doubles next to zero is out of range
      have hlt : m * n < 2 ^ 106 := by
        calc m * n < 2 ^ 53 * 2 ^ 53 := Nat.mul_lt_mul'' hm53 hn53
          _ = 2 ^ 106 := by norm_num
      have hlt' : ((m * n : ℕ) : ℚ) < 2 ^ 106 := by exact_mod_cast hlt
      have hsmall : ((m * n : ℕ) : ℚ) * 2 ^ (-1074 + -1074 : ℤ) < 1 / 2 ^ 200 := by
        calc ((m * n : ℕ) : ℚ) * 2 ^ (-1074 + -1074 : ℤ) < 2 ^ 106 * 2 ^ (-1074 + -1074 : ℤ) := by
              gcongr
          _ = 2 ^ (106 + (-1074 + -1074) : ℤ) := by
              rw [zpow_add₀ (by norm_num) 106]
              norm_cast
          _ ≤ 2 ^ (-200 : ℤ) := zpow_le_zpow_right₀ (by norm_num) (by norm_num)
          _ = 1 / 2 ^ 200 := by norm_num
      exact absurd h hsmall.not_ge

/-- A product in range is rounded to a double near to it. -/
theorem near_mul (hx : value? x = some a) (hy : value? y = some b) (h : InRange (a * b)) :
    ∃ r, value? (x * y) = some r ∧ Near r (a * b) := by
  show ∃ r, value? (packed ((unpacked x).mul .binary64 (unpacked y))) = some r ∧ _
  have hcx := canonical_unpacked x
  have hcy := canonical_unpacked y
  unfold value? at hx hy
  generalize unpacked x = u, unpacked y = v at *
  rcases mul_cases hx hy with ⟨hab, hzero⟩ | ⟨s, t, m, n, e, f, hm, hn, rfl, rfl⟩
  · rw [hab]
    exact ⟨0, hzero, near_refl 0⟩
  · have hab : a * b = ((s * t).apply 1 : ℤ) * (((m * n : ℕ) : ℚ) * 2 ^ (e + f)) := by
      rw [← Option.some.inj hx, ← Option.some.inj hy, apply_eq_mul s m, apply_eq_mul t n,
        apply_one_mul, zpow_add₀ (by norm_num)]
      push_cast
      ring
    have habs : |a * b| = ((m * n : ℕ) : ℚ) * 2 ^ (e + f) := by
      rw [hab, abs_mul, abs_apply_one, one_mul, abs_of_nonneg (by positivity)]
    have hne : a * b ≠ 0 := by
      rw [← abs_pos, habs]
      positivity
    obtain ⟨hmin, hmax⟩ := h.resolve_left hne
    rw [habs] at hmin hmax
    rw [hab]
    exact near_roundWithAccuracy _ (log2_mul hcx hcy hmin) (cut_exact _) hmin hmax

/-! ## Quotients -/

/-- The leading places of two mantissas bound their quotient. -/
lemma log2_div_bounds {m n : ℕ} (hm : 0 < m) (hn : 0 < n) :
    (2 : ℚ) ^ ((m.log2 : ℤ) - n.log2 - 1) ≤ (m : ℚ) / n
      ∧ (m : ℚ) / n < 2 ^ ((m.log2 : ℤ) + 1 - n.log2) := by
  have hn' : (0 : ℚ) < n := by exact_mod_cast hn
  obtain ⟨hmlow, hmhigh⟩ := (cut_exact m).log2_bounds hm
  obtain ⟨hnlow, hnhigh⟩ := (cut_exact n).log2_bounds hn
  constructor
  · rw [le_div_iff₀ hn']
    calc (2 : ℚ) ^ ((m.log2 : ℤ) - n.log2 - 1) * n
        ≤ 2 ^ ((m.log2 : ℤ) - n.log2 - 1) * 2 ^ (n.log2 + 1) := by gcongr
      _ = 2 ^ m.log2 := by
        rw [← zpow_natCast, ← zpow_natCast, ← zpow_add₀ (by norm_num)]
        congr 1
        push_cast
        ring
      _ ≤ m := hmlow
  · rw [div_lt_iff₀ hn']
    calc (m : ℚ) < 2 ^ (m.log2 + 1) := hmhigh
      _ = 2 ^ ((m.log2 : ℤ) + 1 - n.log2) * 2 ^ n.log2 := by
        rw [← zpow_natCast, ← zpow_natCast, ← zpow_add₀ (by norm_num)]
        congr 1
        push_cast
        ring
      _ ≤ 2 ^ ((m.log2 : ℤ) + 1 - n.log2) * n := by gcongr

/-- A quotient in range is computed with the dividend shifted so far that it has enough places. -/
lemma exists_shift_divCore {m n : ℕ} {e f : ℤ} (hm : 0 < m) (hn : 0 < n)
    (hmin : 1 / 2 ^ 200 ≤ (m : ℚ) / n * 2 ^ (e - f)) :
    ∃ k : ℕ, 53 ≤ (m.log2 : ℤ) - n.log2 + k
      ∧ divCore .binary64 m e n f
        = (m * 2 ^ k / n, e - f - k, accuracyOfFraction (m * 2 ^ k % n) n) := by
  have hexp : Format.binary64.minExponent = -1074 := rfl
  have hbits : ((Format.binary64.mantissaBits : ℕ) : ℤ) = 53 := rfl
  have hplace : -200 < (m.log2 : ℤ) + 1 - n.log2 + (e - f) := by
    have hhigh := (log2_div_bounds hm hn).2
    have hlt : (2 : ℚ) ^ (-200 : ℤ) < 2 ^ ((m.log2 : ℤ) + 1 - n.log2 + (e - f)) := by
      calc (2 : ℚ) ^ (-200 : ℤ) = 1 / 2 ^ 200 := by norm_num
        _ ≤ (m : ℚ) / n * 2 ^ (e - f) := hmin
        _ < 2 ^ ((m.log2 : ℤ) + 1 - n.log2) * 2 ^ (e - f) := by gcongr
        _ = _ := (zpow_add₀ (by norm_num) _ _).symm
    exact (zpow_lt_zpow_iff_right₀ (by norm_num)).mp hlt
  obtain ⟨k, hk, hplaces⟩ : ∃ k : ℕ, Min.min (e - f) (Format.binary64.targetExponent
      (Float.Model.totalExponent m e - Float.Model.totalExponent n f)) = e - f - k
      ∧ 53 ≤ (m.log2 : ℤ) - n.log2 + k := by
    rw [Format.targetExponent, Float.Model.totalExponent, Float.Model.totalExponent, hexp, hbits]
    refine ⟨(e - f - Min.min (e - f) (Max.max ((m.log2 : ℤ) + 1 + e - (n.log2 + 1 + f) - 53)
      (-1074))).toNat, ?_, ?_⟩ <;> omega
  have hshift : (e - f - (e - f - (k : ℤ))).toNat = k := by omega
  refine ⟨k, hplaces, ?_⟩
  unfold divCore
  simp only [hk, hshift, Nat.shiftLeft_eq]

/-- The quotient of a shifted mantissa is cut where its residual bits say. -/
lemma cut_div (m k : ℕ) {n : ℕ} (hn : 0 < n) :
    Cut (.ofMantissaAndAccuracy (m * 2 ^ k / n) (accuracyOfFraction (m * 2 ^ k % n) n))
      ((m : ℚ) / n * 2 ^ k) := by
  have hn' : (n : ℚ) ≠ 0 := by exact_mod_cast hn.ne'
  have hdiv : ((m * 2 ^ k % n : ℕ) : ℚ) + n * ((m * 2 ^ k / n : ℕ) : ℚ) = m * 2 ^ k := by
    exact_mod_cast Nat.mod_add_div (m * 2 ^ k) n
  have hv : (m : ℚ) / n * 2 ^ k
      = ((m * 2 ^ k / n : ℕ) : ℚ) + ((m * 2 ^ k % n : ℕ) : ℚ) / n := by
    rw [div_mul_eq_mul_div, div_eq_iff hn', ← hdiv]
    field_simp
    ring
  rw [hv]
  exact cut_fraction _ (Nat.mod_lt _ hn)

/-- Shifted far enough, a quotient has 52 places beside the leading one. -/
lemma log2_div {m n k : ℕ} (hm : 0 < m) (hn : 0 < n) (hk : 53 ≤ (m.log2 : ℤ) - n.log2 + k) :
    52 ≤ (m * 2 ^ k / n).log2 := by
  have hn' : (0 : ℚ) < n := by exact_mod_cast hn
  have hlow := (log2_div_bounds hm hn).1
  have hle : (2 : ℚ) ^ 52 ≤ (m : ℚ) / n * 2 ^ k := by
    calc (2 : ℚ) ^ 52 = 2 ^ (52 : ℤ) := by norm_cast
      _ ≤ 2 ^ ((m.log2 : ℤ) - n.log2 - 1 + k) := zpow_le_zpow_right₀ (by norm_num) (by omega)
      _ = 2 ^ ((m.log2 : ℤ) - n.log2 - 1) * 2 ^ k := by rw [zpow_add₀ (by norm_num), zpow_natCast]
      _ ≤ (m : ℚ) / n * 2 ^ k := by gcongr
  rw [div_mul_eq_mul_div, le_div_iff₀ hn'] at hle
  have hquot : 2 ^ 52 ≤ m * 2 ^ k / n := (Nat.le_div_iff_mul_le hn).mpr (by exact_mod_cast hle)
  exact (Nat.le_log2 (by omega)).mpr hquot

/-- A quotient in range is rounded to a double near to it. -/
theorem near_div (hx : value? x = some a) (hy : value? y = some b) (hb : b ≠ 0)
    (h : InRange (a / b)) : ∃ r, value? (x / y) = some r ∧ Near r (a / b) := by
  show ∃ r, value? (packed ((unpacked x).div .binary64 (unpacked y))) = some r ∧ _
  unfold value? at hx hy
  generalize unpacked x = u, unpacked y = v at *
  cases v with
  | notANumber => cases hy
  | infinity t => cases hy
  | zero t => exact absurd (Option.some.inj hy).symm hb
  | finite t n f hn => cases u with
    | notANumber => cases hx
    | infinity s => cases hx
    | zero s =>
      obtain rfl : 0 = a := Option.some.inj hx
      rw [zero_div]
      exact ⟨0, value?_packed_zero _, near_refl 0⟩
    | finite s m e hm =>
      have hab : a / b = ((s / t).apply 1 : ℤ) * ((m : ℚ) / n * 2 ^ (e - f)) := by
        rw [← Option.some.inj hx, ← Option.some.inj hy, apply_eq_mul s m, apply_eq_mul t n,
          apply_one_div, zpow_sub₀ (by norm_num), ← inv_apply_one t]
        push_cast
        field_simp
      have hpos : (0 : ℚ) < (m : ℚ) / n * 2 ^ (e - f) := by positivity
      have habs : |a / b| = (m : ℚ) / n * 2 ^ (e - f) := by
        rw [hab, abs_mul, abs_apply_one, one_mul, abs_of_pos hpos]
      have hne : a / b ≠ 0 := by
        rw [← abs_pos, habs]
        exact hpos
      obtain ⟨hmin, hmax⟩ := h.resolve_left hne
      rw [habs] at hmin hmax
      obtain ⟨k, hplaces, hcore⟩ := exists_shift_divCore hm hn hmin
      have hv : (m : ℚ) / n * 2 ^ k * 2 ^ (e - f - k) = (m : ℚ) / n * 2 ^ (e - f) := by
        rw [zpow_sub₀ (by norm_num) (e - f), zpow_natCast]
        field_simp
      show ∃ r, value? (packed (roundWithAccuracy .binary64 (s / t) (divCore .binary64 m e n f).1
        (divCore .binary64 m e n f).2.1 (divCore .binary64 m e n f).2.2)) = some r ∧ _
      rw [hcore, hab, ← hv]
      rw [← hv] at hmin hmax
      exact near_roundWithAccuracy _ (log2_div hm hn hplaces) (cut_div m k hn) hmin hmax

/-- A shifted dividend whose quotient is a number that canonical parts stand for is divided without
a remainder. -/
lemma exists_exact_div {m n k c : ℕ} {e g : ℤ} (hn : 0 < n) (hlog : 52 ≤ (m * 2 ^ k / n).log2)
    (hc : c < 2 ^ 53) (hq : (m : ℚ) / n * 2 ^ k * 2 ^ e = c * 2 ^ g) :
    ∃ j : ℕ, m * 2 ^ k = n * (c * 2 ^ j) ∧ e = g - j := by
  have hn' : (n : ℚ) ≠ 0 := by exact_mod_cast hn.ne'
  have hlarge : (2 : ℚ) ^ 52 ≤ (m : ℚ) / n * 2 ^ k := by
    have hpos : m * 2 ^ k / n ≠ 0 := by
      rintro hzero
      rw [hzero] at hlog
      exact absurd hlog (by decide)
    calc (2 : ℚ) ^ 52 ≤ ((m * 2 ^ k / n : ℕ) : ℚ) := by exact_mod_cast (Nat.le_log2 hpos).mp hlog
      _ ≤ ((m * 2 ^ k : ℕ) : ℚ) / n := Nat.cast_div_le
      _ = (m : ℚ) / n * 2 ^ k := by
        push_cast
        ring
  have hle : e ≤ g := by
    by_contra hlt
    have hdouble : (2 : ℚ) ^ g * 2 ≤ 2 ^ e := by
      rw [← zpow_add_one₀ two_ne_zero]
      exact zpow_le_zpow_right₀ one_le_two (by omega)
    have hsmall : (c : ℚ) * 2 ^ g < 2 ^ 53 * 2 ^ g :=
      mul_lt_mul_of_pos_right (by exact_mod_cast hc) (by positivity)
    have hmul : (2 : ℚ) ^ 52 * (2 ^ g * 2) ≤ (m : ℚ) / n * 2 ^ k * 2 ^ e :=
      mul_le_mul hlarge hdouble (by positivity) (by positivity)
    linarith
  obtain ⟨j, rfl⟩ : ∃ j : ℕ, e = g - j := ⟨(g - e).toNat, by omega⟩
  refine ⟨j, ?_, rfl⟩
  have hg : (2 : ℚ) ^ g = 2 ^ j * 2 ^ (g - j) := by
    rw [zpow_sub₀ two_ne_zero, zpow_natCast]
    field_simp
  rw [hg, ← mul_assoc] at hq
  have hquot := mul_right_cancel₀ (by positivity) hq
  rw [div_mul_eq_mul_div, div_eq_iff hn'] at hquot
  have hcast : ((m * 2 ^ k : ℕ) : ℚ) = ((n * (c * 2 ^ j) : ℕ) : ℚ) := by
    push_cast
    rw [hquot]
    ring
  exact_mod_cast hcast

/-- A quotient in range that a double can hold is exact. -/
theorem value?_div_of_canonical {c : ℕ} {g : ℤ} {hc : 0 < c} (hx : value? x = some a)
    (ha : 0 ≤ a) (hy : value? y = some b) (hb : 0 < b) (hmin : 1 / 2 ^ 200 ≤ a / b)
    (hcanonical : Canonical (.finite .positive c g hc)) (hq : a / b = c * 2 ^ g) :
    value? (x / y) = some (a / b) := by
  show value? (packed ((unpacked x).div .binary64 (unpacked y))) = some (a / b)
  unfold value? at hx hy
  generalize unpacked x = u, unpacked y = v at *
  have hpos : 0 < a / b := lt_of_lt_of_le (by positivity) hmin
  rcases mul_cases hx hy with ⟨hzero, -⟩ | ⟨s, t, m, n, e, f, hm, hn, rfl, rfl⟩
  · rcases mul_eq_zero.mp hzero with rfl | rfl
    · rw [zero_div] at hpos
      exact absurd hpos (lt_irrefl 0)
    · exact absurd hb (lt_irrefl 0)
  obtain rfl := eq_positive_of_nonneg hx ha
  obtain rfl := eq_positive_of_nonneg hy hb.le
  have hab : a / b = (m : ℚ) / n * 2 ^ (e - f) := by
    rw [← Option.some.inj hx, ← Option.some.inj hy, zpow_sub₀ two_ne_zero]
    simp only [Sign.apply, Int.cast_natCast]
    field_simp
  rw [hab] at hmin
  obtain ⟨k, hplaces, hcore⟩ := exists_shift_divCore hm hn hmin
  have hv : (m : ℚ) / n * 2 ^ k * 2 ^ (e - f - k) = c * 2 ^ g := by
    rw [← hq, hab, zpow_sub₀ two_ne_zero (e - f), zpow_natCast]
    field_simp
  obtain ⟨j, hexact, hplace⟩ := exists_exact_div hn (log2_div hm hn hplaces) hcanonical.1 hv
  show value? (packed (roundWithAccuracy .binary64 .positive (divCore .binary64 m e n f).1
    (divCore .binary64 m e n f).2.1 (divCore .binary64 m e n f).2.2)) = _
  have haccuracy : accuracyOfFraction 0 n = .exact := rfl
  rw [hcore]
  dsimp only
  rw [hexact, Nat.mul_div_cancel_left _ hn, Nat.mul_mod_right, haccuracy, hplace,
    roundWithAccuracy_of_canonical hcanonical, value?, unpacked_packed hcanonical, hq]
  rfl

end

end Double

end EndlessRemix
