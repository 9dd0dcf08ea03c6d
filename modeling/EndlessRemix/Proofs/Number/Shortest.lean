import EndlessRemix.Number.Shortest
import EndlessRemix.Proofs.Number.Nearest

/-!
# The shortest decimal of a whole number

The decimal that is found for a double lies in the interval of the double. For a whole double one of
the grids that are searched is known to have a neighbour inside: the grid of the whole numbers if it
is among them, since the double itself is on it, and else the last one, which is finer than the
interval. So the decimal has no digits behind the point.
-/

namespace EndlessRemix

open Float.Model.UnpackedFloat
open Double

namespace Decimal

/-- The number that a decimal stands for. -/
def value (d : Decimal) : ℚ := d.digits * 10 ^ d.exponent

/-- A power is what is above one over what is below one. -/
lemma zpow_mul_pow_toNat {b : ℚ} (hb : b ≠ 0) (e : ℤ) : b ^ e * b ^ (-e).toNat = b ^ e.toNat := by
  rw [← zpow_natCast, ← zpow_natCast, ← zpow_add₀ hb]
  congr 1
  omega

lemma value_mul (d : Decimal) :
    d.value * ((10 ^ (-d.exponent).toNat : ℕ) : ℚ) = ((d.digits * 10 ^ d.exponent.toNat : ℕ) : ℚ) := by
  rw [value]
  push_cast
  rw [mul_assoc, zpow_mul_pow_toNat (by norm_num)]

/-- A decimal without digits behind the point stands for a natural. -/
lemma value_of_nonneg {d : Decimal} (h : 0 ≤ d.exponent) :
    d.value = ((d.digits * 10 ^ d.exponent.toNat : ℕ) : ℚ) := by
  rw [← value_mul, Int.toNat_eq_zero.mpr (by omega), pow_zero, Nat.cast_one, mul_one]

/-! ## Trailing zeros -/

/-- Zeros are moved into the exponent without a change of the number. -/
lemma value_normalize (fuel : ℕ) (d : Decimal) : (normalize fuel d).value = d.value := by
  induction fuel generalizing d with
  | zero => rfl
  | succ fuel ih =>
    rw [normalize]
    split_ifs with h
    · have hten : ((d.digits / 10 : ℕ) : ℚ) * 10 = d.digits := by
        exact_mod_cast Nat.div_mul_cancel (Nat.dvd_of_mod_eq_zero h.2)
      rw [ih, value, value, zpow_add_one₀ (by norm_num), ← hten]
      ring
    · rfl

lemma le_exponent_normalize (fuel : ℕ) (d : Decimal) : d.exponent ≤ (normalize fuel d).exponent := by
  induction fuel generalizing d with
  | zero => exact le_rfl
  | succ fuel ih =>
    rw [normalize]
    split_ifs
    · have hrest := ih ⟨d.digits / 10, d.exponent + 1⟩
      dsimp only at hrest
      omega
    · exact le_rfl

/-! ## The search -/

namespace Interval

variable {i : Interval} {exponent : ℤ}

/-- The nearer neighbour on a grid. -/
def near (i : Interval) (exponent : ℤ) : Decimal :=
  let (below, above, up) := i.neighbours exponent
  if up then above else below

/-- The neighbour on the other side. -/
def far (i : Interval) (exponent : ℤ) : Decimal :=
  let (below, above, up) := i.neighbours exponent
  if up then below else above

lemma near_eq (i : Interval) (exponent : ℤ) :
    i.near exponent = ⟨WordFormat.divNearestEven (i.middle * 10 ^ (-exponent).toNat)
      (i.unit * 10 ^ exponent.toNat), exponent⟩ := by
  simp only [near, neighbours, WordFormat.divNearestEven, Nat.pow_eq, decide_eq_true_eq]
  split_ifs <;> rfl

@[simp] lemma exponent_near (i : Interval) (exponent : ℤ) : (i.near exponent).exponent = exponent := by
  rw [near_eq]

@[simp] lemma exponent_far (i : Interval) (exponent : ℤ) : (i.far exponent).exponent = exponent := by
  simp only [far, neighbours, decide_eq_true_eq]
  split_ifs <;> rfl

lemma search_succ (i : Interval) (fuel : ℕ) (exponent : ℤ) :
    i.search (fuel + 1) exponent =
      if i.holds (i.near exponent) then i.near exponent
      else if i.holds (i.far exponent) then i.far exponent
      else i.search fuel (exponent - 1) := rfl

/-- The search ends at a grid whose nearer neighbour is inside, or before it. -/
lemma holds_search {fuel j : ℕ} (hj : j ≤ fuel) (h : i.holds (i.near (exponent - j)) = true) :
    i.holds (i.search fuel exponent) = true ∧ exponent - j ≤ (i.search fuel exponent).exponent := by
  induction fuel generalizing exponent j with
  | zero =>
    obtain rfl : j = 0 := by omega
    rw [Nat.cast_zero, sub_zero] at h ⊢
    exact ⟨h, (exponent_near i exponent).ge⟩
  | succ fuel ih =>
    rw [search_succ]
    by_cases hnear : i.holds (i.near exponent) = true
    · rw [if_pos hnear]
      exact ⟨hnear, by simp⟩
    by_cases hfar : i.holds (i.far exponent) = true
    · rw [if_neg hnear, if_pos hfar]
      exact ⟨hfar, by simp⟩
    · rw [if_neg hnear, if_neg hfar]
      cases j with
      | zero =>
        rw [Nat.cast_zero, sub_zero] at h
        exact absurd h hnear
      | succ j =>
        have hstep : exponent - (j + 1 : ℕ) = exponent - 1 - j := by
          push_cast
          ring
        rw [hstep] at h ⊢
        exact ih (by omega) h

/-! ## The interval of a double -/

section

variable {m : ℕ} {e : ℤ}

lemma unit_pos (m : ℕ) (e : ℤ) : 0 < (ofDouble m e).unit := by
  show 0 < 4 * 2 ^ (-e).toNat
  positivity

/-- The fields of an interval count quarters of the last place. -/
lemma mul_scale (k : ℕ) (m : ℕ) (e : ℤ) :
    ((k * 2 ^ e.toNat : ℕ) : ℚ) = k / 4 * 2 ^ e * (ofDouble m e).unit := by
  have hunit : ((ofDouble m e).unit : ℚ) = 4 * 2 ^ (-e).toNat := by
    show ((4 * 2 ^ (-e).toNat : ℕ) : ℚ) = _
    push_cast
    rfl
  rw [hunit]
  push_cast
  rw [← zpow_mul_pow_toNat two_ne_zero]
  ring

lemma middle_eq (m : ℕ) (e : ℤ) :
    ((ofDouble m e).middle : ℚ) = m * 2 ^ e * (ofDouble m e).unit := by
  show ((4 * m * 2 ^ e.toNat : ℕ) : ℚ) = _
  rw [mul_scale _ m e]
  push_cast
  ring

lemma low_eq (hm : 0 < m) (e : ℤ) :
    ((ofDouble m e).low : ℚ) = (m - lowerReach m e) * 2 ^ e * (ofDouble m e).unit := by
  have hreach : ((4 * m - (if m = 2 ^ 52 ∧ -1074 < e then 1 else 2) : ℕ) : ℚ)
      = 4 * (m - lowerReach m e) := by
    rw [lowerReach, Nat.cast_sub]
    · split_ifs <;> push_cast <;> ring
    · split_ifs <;> omega
  show (((4 * m - (if m = 2 ^ 52 ∧ -1074 < e then 1 else 2)) * 2 ^ e.toNat : ℕ) : ℚ) = _
  rw [mul_scale _ m e, hreach]
  ring

lemma high_eq (m : ℕ) (e : ℤ) :
    ((ofDouble m e).high : ℚ) = (m + 1 / 2) * 2 ^ e * (ofDouble m e).unit := by
  show (((4 * m + 2) * 2 ^ e.toNat : ℕ) : ℚ) = _
  rw [mul_scale _ m e]
  push_cast
  ring

/-- A decimal is inside if it is rounded to the double. -/
lemma holds_iff (hm : 0 < m) (e : ℤ) (d : Decimal) :
    (ofDouble m e).holds d = true ↔ Nearest d.value m e := by
  have hunit : (0 : ℚ) < (ofDouble m e).unit := by exact_mod_cast unit_pos m e
  have hscale : (0 : ℚ) < (10 ^ (-d.exponent).toNat : ℕ) := by positivity
  -- the decimal and the ends are compared over a common denominator
  have hpoint : ((d.digits * 10 ^ d.exponent.toNat * (ofDouble m e).unit : ℕ) : ℚ)
      = d.value * (ofDouble m e).unit * (10 ^ (-d.exponent).toNat : ℕ) := by
    rw [Nat.cast_mul, ← value_mul]
    ring
  have hle (a b : ℚ) : a * (ofDouble m e).unit * (10 ^ (-d.exponent).toNat : ℕ)
      ≤ b * (ofDouble m e).unit * (10 ^ (-d.exponent).toNat : ℕ) ↔ a ≤ b := by
    rw [mul_le_mul_iff_left₀ hscale, mul_le_mul_iff_left₀ hunit]
  have hlt (a b : ℚ) : a * (ofDouble m e).unit * (10 ^ (-d.exponent).toNat : ℕ)
      < b * (ofDouble m e).unit * (10 ^ (-d.exponent).toNat : ℕ) ↔ a < b := by
    rw [mul_lt_mul_iff_left₀ hscale, mul_lt_mul_iff_left₀ hunit]
  have hclosed : (ofDouble m e).closed = decide (m % 2 = 0) := rfl
  rw [holds, hclosed]
  simp only [Nat.pow_eq, decide_eq_true_eq]
  rcases Nat.even_or_odd m with heven | hodd
  · rw [if_pos (Nat.even_iff.mp heven), decide_eq_true_eq, nearest_of_even heven,
      ← hle _ d.value, ← hle d.value, ← low_eq hm, ← high_eq, ← hpoint]
    norm_cast
  · rw [if_neg (by rw [Nat.odd_iff.mp hodd]; exact one_ne_zero), decide_eq_true_eq,
      nearest_of_odd hodd, ← hlt _ d.value, ← hlt d.value, ← low_eq hm, ← high_eq, ← hpoint]
    norm_cast

end

/-! ## The nearer neighbour -/

/-- The nearer neighbour is off by half a step of the grid at most. -/
lemma abs_near_sub_le (i : Interval) (hunit : 0 < i.unit) (exponent : ℤ) :
    |(i.near exponent).value - i.middle / i.unit| ≤ 10 ^ exponent / 2 := by
  have hunit' : (0 : ℚ) < i.unit := by exact_mod_cast hunit
  have hstep : (0 : ℚ) < 10 ^ exponent := by positivity
  have hden : 0 < i.unit * 10 ^ exponent.toNat := by positivity
  have hnear := WordFormat.abs_divNearestEven_sub_le (i.middle * 10 ^ (-exponent).toNat) hden
  have hquotient : (i.middle : ℚ) / i.unit
      = ((i.middle * 10 ^ (-exponent).toNat : ℕ) : ℚ) / ((i.unit * 10 ^ exponent.toNat : ℕ) : ℚ)
        * 10 ^ exponent := by
    push_cast
    rw [← zpow_mul_pow_toNat (by norm_num) exponent]
    field_simp
  have hhalf : (10 : ℚ) ^ exponent / 2 = 1 / 2 * 10 ^ exponent := by ring
  rw [near_eq, value, hquotient, ← sub_mul, abs_mul, abs_of_pos hstep, hhalf]
  exact mul_le_mul_of_nonneg_right hnear hstep.le

end Interval

/-! ## The decimal of a whole number -/

lemma width_pos (n : ℕ) : 0 < width n := Nat.length_toDigits_pos

/-- A number has as many digits as the power of ten at or below it tells. -/
lemma ten_pow_width_le {n : ℕ} (hn : 0 < n) : 10 ^ (width n - 1) ≤ n := by
  rcases Nat.eq_zero_or_pos (width n - 1) with hzero | hpos
  · rw [hzero]
    exact hn
  · by_contra hlt
    have hwidth := (Nat.length_toDigits_le_iff (b := 10) (n := n) (by norm_num) hpos).mpr (by omega)
    have := width_pos n
    rw [width] at *
    omega

/-- Seventeen digits are enough: the step of their grid is finer than the interval. -/
lemma half_step_lt {m k : ℕ} {e : ℤ} {s : Sign} {hm : 0 < m} (hc : Canonical (.finite s m e hm))
    (hk : (10 : ℚ) ^ k ≤ m * 2 ^ e) : (10 : ℚ) ^ ((k : ℤ) - 16) / 2 < lowerReach m e * 2 ^ e := by
  have h2 : (0 : ℚ) < 2 ^ e := by positivity
  have hstep : (10 : ℚ) ^ ((k : ℤ) - 16) * 10 ^ 16 ≤ m * 2 ^ e := by
    rw [zpow_sub₀ (by norm_num), zpow_natCast]
    norm_num
    exact hk
  unfold lowerReach
  split_ifs with hnarrow
  · rw [hnarrow.1] at hstep
    push_cast at hstep
    linarith
  · have hlt : (m : ℚ) < 2 ^ 53 := by exact_mod_cast hc.1
    have hmul : (m : ℚ) * 2 ^ e < 2 ^ 53 * 2 ^ e := mul_lt_mul_of_pos_right hlt h2
    linarith

section

variable {m k v : ℕ} {e : ℤ} {s : Sign} {hm : 0 < m}

/-- The middle of the interval of a whole double. -/
lemma middle_of_whole (hv : (m : ℚ) * 2 ^ e = v) :
    (Interval.ofDouble m e).middle = v * (Interval.ofDouble m e).unit := by
  have hmiddle := Interval.middle_eq m e
  rw [hv] at hmiddle
  exact_mod_cast hmiddle

/-- A whole double is on the grid of the whole numbers. -/
lemma holds_near_zero (hm : 0 < m) (hv : (m : ℚ) * 2 ^ e = v) :
    (Interval.ofDouble m e).holds ((Interval.ofDouble m e).near 0) = true := by
  have hself : (Interval.ofDouble m e).near 0 = ⟨v, 0⟩ := by
    rw [Interval.near_eq, middle_of_whole hv, neg_zero, Int.toNat_zero, pow_zero, mul_one, mul_one,
      WordFormat.divNearestEven_mul v (Interval.unit_pos m e)]
  have hvalue : (⟨v, 0⟩ : Decimal).value = m * 2 ^ e := by
    rw [value, zpow_zero, mul_one, hv]
  rw [hself, Interval.holds_iff hm, hvalue]
  apply nearest_of_abs_lt
  rw [sub_self, abs_zero]
  exact mul_pos (lowerReach_pos m e) (by positivity)

/-- On the grid of seventeen digits the nearer neighbour of a double is inside. -/
lemma holds_near_last (hc : Canonical (.finite s m e hm)) (hk : (10 : ℚ) ^ k ≤ m * 2 ^ e) :
    (Interval.ofDouble m e).holds ((Interval.ofDouble m e).near (k - 16)) = true := by
  have hunit := Interval.unit_pos m e
  have hmiddle : ((Interval.ofDouble m e).middle : ℚ) / (Interval.ofDouble m e).unit
      = m * 2 ^ e := by
    rw [Interval.middle_eq, mul_div_cancel_right₀ _ (by exact_mod_cast hunit.ne')]
  have hnear := (Interval.ofDouble m e).abs_near_sub_le hunit (k - 16)
  rw [hmiddle] at hnear
  rw [Interval.holds_iff hm]
  exact nearest_of_abs_lt (hnear.trans_lt (half_step_lt hc hk))

/-- The search for a whole double starts at its own number of digits. -/
lemma exists_start (hm : 0 < m) (hv : (m : ℚ) * 2 ^ e = v) :
    ∃ k : ℕ, (10 : ℚ) ^ k ≤ m * 2 ^ e
      ∧ shortest m e = normalize 17 ((Interval.ofDouble m e).search 16 k) := by
  have hpos : 0 < v := by
    have hcast : (0 : ℚ) < v := by
      rw [← hv]
      positivity
    exact_mod_cast hcast
  obtain ⟨k, hk⟩ : ∃ k, width v = k + 1 := ⟨width v - 1, by have := width_pos v; omega⟩
  have hpoint : pointOf (Interval.ofDouble m e).middle (Interval.ofDouble m e).unit - 1 = k := by
    rw [pointOf, middle_of_whole hv, if_pos (Nat.le_mul_of_pos_left _ hpos),
      Nat.mul_div_cancel _ (Interval.unit_pos m e), hk]
    push_cast
    ring
  refine ⟨k, ?_, ?_⟩
  · have hle := ten_pow_width_le hpos
    rw [hk, Nat.add_sub_cancel] at hle
    rw [hv]
    exact_mod_cast hle
  · rw [← hpoint]
    rfl

/-- A whole double is written with a decimal that is rounded to it and has no digits behind the
point. -/
theorem shortest_whole (hc : Canonical (.finite s m e hm)) (hv : (m : ℚ) * 2 ^ e = v) :
    Nearest (shortest m e).value m e ∧ 0 ≤ (shortest m e).exponent := by
  obtain ⟨k, hk, hshortest⟩ := exists_start hm hv
  -- one of the grids that are searched has a neighbour inside, and its step is not below one
  have hgrid : ∃ j ≤ 16, j ≤ k
      ∧ (Interval.ofDouble m e).holds ((Interval.ofDouble m e).near (k - j)) = true := by
    by_cases hsmall : k ≤ 16
    · refine ⟨k, hsmall, le_rfl, ?_⟩
      rw [sub_self]
      exact holds_near_zero hm hv
    · exact ⟨16, le_rfl, by omega, holds_near_last hc hk⟩
  obtain ⟨j, hj, hjk, hholds⟩ := hgrid
  obtain ⟨hfound, hcoarse⟩ := Interval.holds_search hj hholds
  have hnonneg : (0 : ℤ) ≤ k - j := by omega
  rw [hshortest, value_normalize]
  exact ⟨(Interval.holds_iff hm e _).mp hfound,
    hnonneg.trans (hcoarse.trans (le_exponent_normalize 17 _))⟩

end

end Decimal

end EndlessRemix
