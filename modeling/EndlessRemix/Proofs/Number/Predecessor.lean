import EndlessRemix.Proofs.Number.Nearest

/-!
# The predecessors of large integers

Up to `2 ^ 53` the predecessor of an integer is a double. Above, the doubles are two apart or more,
so it lies halfway between two of them at best and is rounded to the even mantissa. Below `2 ^ 54`
this may be the mantissa below; from there on subtracting one changes nothing.
-/

namespace EndlessRemix

open Float.Model.UnpackedFloat

namespace Double

variable {x : Float}

/-- An integer from `2 ^ 53` on that a double can hold has a place above that of the ones. -/
lemma exists_mantissa {n : ℕ} (h : value? x = some (n : ℚ)) (hn : 2 ^ 53 ≤ n) :
    ∃ (m k : ℕ) (hm : 0 < m), Canonical (.finite .positive m (k + 1 : ℕ) hm)
      ∧ n = m * 2 ^ (k + 1) := by
  have hpos : (0 : ℚ) < n := by exact_mod_cast lt_of_lt_of_le (by norm_num) hn
  rcases canonical_of_value h with hzero | ⟨s, m, f, hm, hc, hvalue⟩
  · exact absurd hzero hpos.ne'
  · cases s with
    | negative => exact absurd (hvalue ▸ hpos) (negative_value_neg hm f).not_gt
    | positive =>
      have hn' : (n : ℚ) = m * 2 ^ f := hvalue
      have hmf : (m : ℚ) < m * 2 ^ f := by
        rw [← hn']
        exact_mod_cast hc.1.trans_le hn
      have hf : 0 < f := by
        by_contra hle
        have hone : (2 : ℚ) ^ f ≤ 1 := zpow_le_one_of_nonpos₀ (by norm_num) (not_lt.mp hle)
        exact absurd hmf (mul_le_of_le_one_right (Nat.cast_nonneg m) hone).not_gt
      obtain ⟨k, rfl⟩ : ∃ k : ℕ, f = (k + 1 : ℕ) := ⟨(f - 1).toNat, by omega⟩
      exact ⟨m, k, hm, hc, by exact_mod_cast hn'⟩

/-- The predecessor of a double is rounded to it again if its interval reaches that far down. -/
lemma nearest_sub_one {m : ℕ} {f : ℤ} (hle : 1 ≤ lowerReach m f * 2 ^ f)
    (hodd : Odd m → 1 < lowerReach m f * 2 ^ f) : Nearest (m * 2 ^ f - 1) m f := by
  have h2 : (0 : ℚ) < 2 ^ f := by positivity
  refine ⟨?_, by linarith, fun h => ⟨?_, by linarith⟩⟩
  · linarith
  · linarith [hodd h]

/-- The interval of an integer above `2 ^ 53` that a double can hold reaches down to its
predecessor, unless the integer is twice an odd mantissa. -/
lemma nearest_sub_one_of_large {m k : ℕ} (hn : 2 ^ 53 < m * 2 ^ (k + 1))
    (h : k = 0 → Even m) : Nearest (m * 2 ^ ((k + 1 : ℕ) : ℤ) - 1) m (k + 1 : ℕ) := by
  have hquarter : 1 / 4 ≤ lowerReach m (k + 1 : ℕ) := by
    unfold lowerReach
    split_ifs <;> norm_num
  have hhalf (hm : m ≠ 2 ^ 52) : lowerReach m (k + 1 : ℕ) = 1 / 2 := if_neg fun hle => hm hle.1
  cases k with
  | zero =>
    have hm : m ≠ 2 ^ 52 := by
      rintro rfl
      norm_num at hn
    apply nearest_sub_one
    · rw [hhalf hm]
      norm_num
    · intro hodd
      exact absurd (h rfl) (Nat.not_even_iff_odd.mpr hodd)
  | succ k =>
    have hplace : (4 : ℚ) ≤ 2 ^ ((k + 1 + 1 : ℕ) : ℤ) := by
      rw [zpow_natCast, pow_succ, pow_succ, mul_assoc]
      linarith [one_le_pow₀ (by norm_num : (1 : ℚ) ≤ 2) (n := k)]
    apply nearest_sub_one
    · nlinarith
    · intro hodd
      have hm : m ≠ 2 ^ 52 := by
        rintro rfl
        exact absurd hodd (by decide)
      rw [hhalf hm]
      linarith

/-- The predecessor of an integer above `2 ^ 53` lies halfway to the next double below or nearer, so
it is rounded up again, unless the mantissa below is the even one of the two. -/
theorem value?_sub_one_of_large {n : ℕ} (h : value? x = some (n : ℚ)) (hn : 2 ^ 53 < n)
    (htie : n < 2 ^ 54 → n % 4 ≠ 2) : value? (x - 1) = some (n : ℚ) := by
  obtain ⟨m, k, hm, hc, rfl⟩ := exists_mantissa h hn.le
  have heven (hk : k = 0) : Even m := by
    subst hk
    have := htie (by have := hc.1; omega)
    rw [Nat.even_iff]
    omega
  have hrounded := RoundedFrom.sub h value?_one (by exact_mod_cast by omega)
  have hvalue : (((m * 2 ^ (k + 1) : ℕ) : ℚ)) = m * 2 ^ ((k + 1 : ℕ) : ℤ) := by
    push_cast
    rfl
  rw [hvalue] at hrounded ⊢
  exact hrounded.eq_of_nearest hc (nearest_sub_one_of_large hn heven)

/-- Below `2 ^ 54` a double that is twice an odd mantissa has a predecessor that is rounded down. -/
theorem value?_sub_one_of_tie {n : ℕ} (h : value? x = some (n : ℚ)) (hn : 2 ^ 53 < n)
    (hlt : n < 2 ^ 54) (hmod : n % 4 = 2) : value? (x - 1) = some ((n - 2 : ℕ) : ℚ) := by
  obtain ⟨m, k, hm, hc, rfl⟩ := exists_mantissa h hn.le
  have hfull : 2 ^ 52 ≤ m := hc.2.1.resolve_right (by omega)
  have hrounded := RoundedFrom.sub h value?_one (by exact_mod_cast by omega)
  cases k with
  | succ k =>
    have hlarge : 2 ^ 52 * 4 ≤ m * 2 ^ (k + 1 + 1) :=
      Nat.mul_le_mul hfull (by rw [pow_succ, pow_succ]; have := Nat.one_le_two_pow (n := k); omega)
    omega
  | zero =>
    obtain ⟨j, rfl⟩ : Odd m := Nat.odd_iff.mpr (by omega)
    -- the mantissa below is even, and half a place is one
    have hj : 0 < 2 * j := by omega
    have hc' : Canonical (.finite .positive (2 * j) (0 + 1 : ℕ) hj) :=
      ⟨by have := hc.1; omega, .inl (by omega), hc.2.2⟩
    have hnearest : Nearest ((((2 * j + 1) * 2 ^ (0 + 1) : ℕ) : ℚ) - 1) (2 * j) (0 + 1 : ℕ) := by
      have hreach := lowerReach_pos (2 * j) 1
      rw [nearest_of_even (even_two_mul j)]
      push_cast
      constructor <;> linarith
    have hdown : (2 * j + 1) * 2 ^ (0 + 1) - 2 = 2 * j * 2 := by omega
    rw [hdown, hrounded.eq_of_nearest hc' hnearest]
    norm_num

end Double

end EndlessRemix
