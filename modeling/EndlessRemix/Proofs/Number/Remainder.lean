import EndlessRemix.Proofs.Number.Integer

/-!
# Remainders of whole numbers

The remainder of a natural number below `2 ^ 53` by any other that is a double is exact, so two of
them compare the same as doubles exactly if they are the same.
-/

namespace EndlessRemix

open Float.Model.UnpackedFloat

namespace Double

/-! ## Sameness -/

section

variable {x y : Float} {a b : ℚ}

/-- Finite doubles compare the same if their values are. -/
theorem same_iff_of_value (hx : value? x = some a) (hy : value? y = some b) :
    Scalar.same x y = true ↔ a = b := by
  rw [Scalar.same, Bool.and_eq_true, decide_eq_true_eq, decide_eq_true_eq]
  show x ≤ y ∧ y ≤ x ↔ _
  rw [le_iff_of_value hx hy, le_iff_of_value hy hx]
  exact le_antisymm_iff.symm

/-- What compares the same as a finite double has its value. -/
theorem value?_of_same (h : Scalar.same x y = true) (hy : value? y = some b) :
    value? x = some b := by
  have hle := h
  rw [Scalar.same, Bool.and_eq_true, decide_eq_true_eq, decide_eq_true_eq] at hle
  obtain ⟨a, hx⟩ := exists_value_of_between hy hy hle.2 hle.1
  rw [hx, (same_iff_of_value hx hy).mp h]

/-- A double has no fractional part if its value is an integer. -/
theorem isWhole_iff : Scalar.isWhole x = true ↔ ∃ k : ℤ, value? x = some (k : ℚ) := by
  rw [Scalar.isWhole, Bool.and_eq_true]
  constructor
  · rintro ⟨hfinite, hsame⟩
    obtain ⟨a, ha⟩ := (isFinite_iff x).mp hfinite
    refine ⟨⌊a⌋, ?_⟩
    rw [ha, (same_iff_of_value (value?_floor ha) ha).mp hsame]
  · rintro ⟨k, hk⟩
    refine ⟨(isFinite_iff x).mpr ⟨k, hk⟩, (same_iff_of_value (value?_floor hk) hk).mpr ?_⟩
    rw [Int.floor_intCast]

end

/-! ## Remainders -/

/-- A common unit does not matter to a remainder. -/
lemma mod_mul_two_pow {i n scaled divisor : ℕ} {e : ℤ} (hi : (scaled : ℚ) * 2 ^ e = i)
    (hn : (divisor : ℚ) * 2 ^ e = n) : ((scaled % divisor : ℕ) : ℚ) * 2 ^ e = (i % n : ℕ) := by
  rcases le_or_gt 0 e with he | he
  · obtain ⟨k, rfl⟩ := Int.eq_ofNat_of_zero_le he
    rw [zpow_natCast] at hi hn ⊢
    have hi' : scaled * 2 ^ k = i := by exact_mod_cast hi
    have hn' : divisor * 2 ^ k = n := by exact_mod_cast hn
    rw [← hi', ← hn', Nat.mul_mod_mul_right]
    push_cast
    rfl
  · obtain ⟨k, rfl⟩ : ∃ k : ℕ, e = -k := ⟨(-e).toNat, by omega⟩
    have h2 : (2 : ℚ) ^ k ≠ 0 := by positivity
    rw [zpow_neg, zpow_natCast, mul_inv_eq_iff_eq_mul₀ h2] at hi hn ⊢
    have hi' : scaled = i * 2 ^ k := by exact_mod_cast hi
    have hn' : divisor = n * 2 ^ k := by exact_mod_cast hn
    rw [hi', hn', Nat.mul_mod_mul_right]
    push_cast
    rfl

/-- The remainder of a number written with a sign has that sign. -/
lemma remainder_finite (s t : Sign) {m n : ℕ} (e f : ℤ) (hn : 0 < n) :
    (Datum.finite (s == .negative) m e).remainder (.finite (t == .negative) n f)
      = .finite (s == .negative)
          (m * 2 ^ (e - Min.min e f).toNat % (n * 2 ^ (f - Min.min e f).toNat)) (Min.min e f) := by
  simp only [Datum.remainder, Nat.pow_eq, if_neg hn.ne']

/-- Raising a mantissa to a smaller exponent does not change a number. -/
lemma mul_two_pow_toNat (m : ℕ) {e f : ℤ} (h : f ≤ e) :
    ((m * 2 ^ (e - f).toNat : ℕ) : ℚ) * 2 ^ f = m * 2 ^ e := by
  have he : (2 : ℚ) ^ e = 2 ^ (e - f).toNat * 2 ^ f := by
    rw [← zpow_natCast, ← zpow_add₀ (by norm_num)]
    congr 1
    omega
  rw [he]
  push_cast
  ring

/-- A natural number below `2 ^ 53` is encoded exactly, however it is written. -/
lemma value?_ofDatum_nat {m k : ℕ} {e : ℤ} (hk : k < 2 ^ 53) (h : (m : ℚ) * 2 ^ e = k) :
    value? (ofDatum (.finite false m e)) = some (k : ℚ) := by
  rcases Nat.eq_zero_or_pos m with rfl | hm
  · rw [← h, Nat.cast_zero, zero_mul, ofDatum, WordFormat.encode_zero]
    rfl
  · have hvalue : value? (Scalar.ofNat k) = some ((Sign.positive.apply (m : ℤ) : ℚ) * 2 ^ e) := by
      rw [value?_ofNat hk, ← h]
      rfl
    have hdouble : ofDatum (.finite false m e) = Scalar.ofNat k :=
      ofDatum_of_value (s := .positive) hm hvalue
    rw [hdouble, value?_ofNat hk]

/-- The parts of a natural number: it has no sign, unless it is zero. -/
lemma datum_of_nat {x : Float} {i : ℕ} (h : value? x = some (i : ℚ)) :
    ∃ (s : Sign) (m : ℕ) (e : ℤ), datum x = .finite (s == .negative) m e
      ∧ (m : ℚ) * 2 ^ e = i ∧ (s = .positive ∨ m = 0) := by
  obtain ⟨s, m, e, hdatum, hi⟩ := datum_of_value h
  have h2 : (0 : ℚ) < 2 ^ e := by positivity
  cases s with
  | positive => exact ⟨.positive, m, e, hdatum, hi.symm, .inl rfl⟩
  | negative =>
    simp only [Sign.apply] at hi
    push_cast at hi
    have hm : (m : ℚ) * 2 ^ e = 0 := by
      have hpos : (0 : ℚ) ≤ m * 2 ^ e := by positivity
      have hi0 : (0 : ℚ) ≤ i := Nat.cast_nonneg i
      linarith
    have hm0 : m = 0 := by exact_mod_cast (mul_eq_zero.mp hm).resolve_right h2.ne'
    exact ⟨.negative, m, e, hdatum, by linarith, .inr hm0⟩

section

variable {x y : Float} {i n : ℕ}

/-- The remainder of a natural number below `2 ^ 53` is exact. -/
theorem value?_remainder (hx : value? x = some (i : ℚ)) (hy : value? y = some (n : ℚ))
    (hi : i < 2 ^ 53) (hn : 0 < n) :
    value? (Scalar.remainder x y) = some ((i % n : ℕ) : ℚ) := by
  obtain ⟨s, m, e, hdx, hmi, hs⟩ := datum_of_nat hx
  obtain ⟨t, m', f, hdy, hmn, -⟩ := datum_of_nat hy
  have hm' : 0 < m' := by
    rcases Nat.eq_zero_or_pos m' with rfl | hpos
    · rw [Nat.cast_zero, zero_mul] at hmn
      exact absurd (by exact_mod_cast hmn.symm) hn.ne'
    · exact hpos
  have hlt : i % n < 2 ^ 53 := (Nat.mod_le i n).trans_lt hi
  have hmod := mod_mul_two_pow ((mul_two_pow_toNat m (min_le_left e f)).trans hmi)
    ((mul_two_pow_toNat m' (min_le_right e f)).trans hmn)
  show value? (ofDatum ((datum x).remainder (datum y))) = _
  rw [hdx, hdy, remainder_finite s t e f hm']
  rcases hs with rfl | rfl
  · exact value?_ofDatum_nat hlt hmod
  · -- zero keeps its sign
    rw [Nat.zero_mul, Nat.zero_mod] at hmod ⊢
    rw [← hmod, Nat.cast_zero, zero_mul, ofDatum, WordFormat.encode_zero]
    cases s <;> rfl

/-- Natural numbers have the same remainder exactly if their remainders compare the same. -/
theorem same_remainder_iff {j : ℕ} {z : Float} (hx : value? x = some (i : ℚ))
    (hz : value? z = some (j : ℚ)) (hy : value? y = some (n : ℚ)) (hi : i < 2 ^ 53)
    (hj : j < 2 ^ 53) (hn : 0 < n) :
    Scalar.same (Scalar.remainder x y) (Scalar.remainder z y) = true ↔ i % n = j % n := by
  rw [same_iff_of_value (value?_remainder hx hy hi hn) (value?_remainder hz hy hj hn)]
  exact Nat.cast_inj

end

end Double

end EndlessRemix
