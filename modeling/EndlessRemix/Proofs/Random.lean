import EndlessRemix.Proofs.Number.Rounding
import EndlessRemix.Random

/-!
# Draws, and positions chosen by them

A seeded generator draws numbers in `[0, 1)`. Such a draw times a length is rounded, and may be
rounded up to the length itself. The position that `pickIndex` makes of it is still one of the list.
-/

namespace EndlessRemix

open Double

section

variable {draw : Float} {n : ℕ}

/-- The last position is what holds a picked position below the length. -/
lemma value?_last (hpos : 0 < n) (hn : n < 2 ^ 53) :
    value? ((Scalar.ofNat n : Float) - Scalar.ofNat 1) = some ((n - 1 : ℕ) : ℚ) := by
  apply value?_sub (value?_ofNat hn) value?_one (by omega)
  rw [Nat.cast_pred hpos]

/-- The whole part of the product of draw and length is picked, if it is a position. -/
lemma value?_pickIndex {p : ℚ} (hp : value? (draw * Scalar.ofNat n) = some p) (hp0 : 0 ≤ p)
    (hpos : 0 < n) (hn : n < 2 ^ 53) :
    value? (pickIndex draw (Scalar.ofNat n)) = some ((Min.min ⌊p⌋₊ (n - 1) : ℕ) : ℚ) := by
  show value? (Double.min (Scalar.floor (draw * Scalar.ofNat n))
    ((Scalar.ofNat n : Float) - Scalar.ofNat 1)) = _
  rw [value?_min (value?_floor hp) (value?_last hpos hn), ← natCast_floor_eq_intCast_floor hp0]
  push_cast
  rfl

/-- A draw in `[0, 1)` picks a position of the list. -/
theorem whole_pickIndex (h0 : 0 ≤ draw) (h1 : draw < 1) (hpos : 0 < n) (hn : n < 2 ^ 53) :
    ∃ k < n, Scalar.whole (pickIndex draw (Scalar.ofNat n)) = .int (k : ℕ) := by
  obtain ⟨q, hq⟩ := exists_value_of_lt value?_zero h0 h1
  have hq0 := (le_iff_of_value value?_zero hq).mp h0
  have hpick : ∃ k < n, value? (pickIndex draw (Scalar.ofNat n)) = some ((k : ℕ) : ℚ) := by
    rcases mul_nonneg_cases hq hq0 (value?_ofNat hn) (by positivity) with ⟨p, hp, hp0⟩ | hinf
    · exact ⟨Min.min ⌊p⌋₊ (n - 1), by omega, value?_pickIndex hp hp0 hpos hn⟩
    · -- a product that is too large is held at the last position
      have htop := unpacked_floor_infinity hinf
      have hlast := value?_last hpos hn
      refine ⟨n - 1, by omega, ?_⟩
      show value? (Double.min (Scalar.floor (draw * Scalar.ofNat n))
        ((Scalar.ofNat n : Float) - Scalar.ofNat 1)) = _
      rw [Double.min, if_neg (not_infinity_lt htop), if_pos (lt_infinity hlast htop), hlast]
  obtain ⟨k, hk, hvalue⟩ := hpick
  refine ⟨k, hk, ?_⟩
  apply whole_of_value
  rw [hvalue, Int.cast_natCast]

end

/-- A state is an exact fraction of `2 ^ 32`. -/
theorem value?_unitOf (state : UInt32) :
    value? (unitOf state : Float) = some ((state.toNat : ℚ) / 2 ^ 32) := by
  have hlt : state.toNat < 4294967296 := state.toNat_lt
  have hstate : value? (Scalar.ofNat state.toNat) = some ((state.toNat : ℕ) : ℚ) :=
    value?_ofNat (by omega)
  have hsize : value? (Scalar.ofNat UInt32.size) = some (2 ^ 32 : ℚ) := by
    rw [value?_ofNat (by norm_num)]
    norm_num
  rcases Nat.eq_zero_or_pos state.toNat with hzero | hpos
  · have hquot : (state.toNat : ℚ) / 2 ^ 32 = 0 := by rw [hzero, Nat.cast_zero, zero_div]
    obtain ⟨r, hr, hnear⟩ := near_div hstate hsize (by norm_num) (.inl hquot)
    rw [Near, hquot, sub_zero, abs_zero, zero_div] at hnear
    rw [unitOf, hr, abs_nonpos_iff.mp hnear, hquot]
  · obtain ⟨m, f, hm, hcanonical, hparts⟩ :=
      exists_canonical_nat hpos (e := -32) (by omega) (by norm_num) (by norm_num) .positive
    have hone : (1 : ℚ) ≤ state.toNat := by exact_mod_cast hpos
    refine value?_div_of_canonical hstate (by positivity) hsize (by positivity) ?_ hcanonical ?_
    · rw [le_div_iff₀ (by norm_num)]
      exact le_trans (by norm_num) hone
    · rw [← hparts]
      norm_num
      ring

/-- A state is a number in `[0, 1)`. -/
theorem unitOf_bounds (state : UInt32) : 0 ≤ (unitOf state : Float) ∧ (unitOf state : Float) < 1 := by
  have hlt : (state.toNat : ℚ) < 2 ^ 32 := by exact_mod_cast state.toNat_lt
  have hvalue := value?_unitOf state
  constructor
  · exact (le_iff_of_value value?_zero hvalue).mpr (by positivity)
  · refine (lt_iff_of_value hvalue value?_one).mpr ?_
    rw [div_lt_iff₀ (by norm_num)]
    linarith

end EndlessRemix
