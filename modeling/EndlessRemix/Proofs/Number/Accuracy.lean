import EndlessRemix.Number.Scalar
import EndlessRemix.Proofs.Number.Rounding

/-!
# Arithmetic up to rounding

What a rounded arithmetic keeps of the exact one: order, whole numbers and the choice between two
numbers are exact, and a sum, a product or a quotient in range has a relative error of at most
`2 ^ -53`. Doubles are such an arithmetic. `RoundsTo x n q` says that a scalar is the number `q` up
to `n` such errors; a count of frames that is known up to three of them is found again by rounding.
-/

namespace EndlessRemix

/-- The laws of an arithmetic that rounds. -/
class RoundedArithmetic (R : Type) [Scalar R] where
  /-- The number that a finite scalar stands for. -/
  real? : R → Option ℝ
  isFinite_iff : ∀ x : R, Scalar.isFinite x = true ↔ ∃ a, real? x = some a
  lt_iff : ∀ {x y : R} {a b : ℝ}, real? x = some a → real? y = some b → (x < y ↔ a < b)
  le_iff : ∀ {x y : R} {a b : ℝ}, real? x = some a → real? y = some b → (x ≤ y ↔ a ≤ b)
  real?_ofNat : ∀ {n : ℕ}, n < 2 ^ 53 → real? (Scalar.ofNat n : R) = some (n : ℝ)
  real?_min : ∀ {x y : R} {a b : ℝ}, real? x = some a → real? y = some b →
    real? (min x y) = some (Min.min a b)
  real?_max : ∀ {x y : R} {a b : ℝ}, real? x = some a → real? y = some b →
    real? (max x y) = some (Max.max a b)
  real?_round : ∀ {x : R} {a : ℝ}, real? x = some a →
    real? (Scalar.round x) = some (round a : ℝ)
  near_add : ∀ {x y : R} {a b : ℝ}, real? x = some a → real? y = some b → InRange (a + b) →
    ∃ r, real? (x + y) = some r ∧ Near r (a + b)
  near_mul : ∀ {x y : R} {a b : ℝ}, real? x = some a → real? y = some b → InRange (a * b) →
    ∃ r, real? (x * y) = some r ∧ Near r (a * b)
  near_div : ∀ {x y : R} {a b : ℝ}, real? x = some a → real? y = some b → b ≠ 0 →
    InRange (a / b) → ∃ r, real? (x / y) = some r ∧ Near r (a / b)
  near_billionth : ∃ r, real? (1e-9 : R) = some r ∧ Near r ((1 / 10 ^ 9 : ℚ) : ℝ)

namespace RoundedArithmetic

variable {R : Type} [Scalar R] [RoundedArithmetic R]

lemma real?_zero : real? (0 : R) = some (0 : ℝ) := by
  rw [← Nat.cast_zero]
  exact real?_ofNat (by norm_num)

lemma real?_one : real? (1 : R) = some (1 : ℝ) := by
  rw [← Nat.cast_one]
  exact real?_ofNat (by norm_num)

end RoundedArithmetic

/-! ## Doubles -/

namespace Double

lemma near_cast {r q : ℚ} : Near (r : ℝ) (q : ℝ) ↔ Near r q := by
  unfold Near
  exact_mod_cast Iff.rfl

lemma inRange_cast {q : ℚ} : InRange (q : ℝ) ↔ InRange q := by
  have hlow : (1 / 2 ^ 200 : ℝ) = ((1 / 2 ^ 200 : ℚ) : ℝ) := by norm_num
  have hhigh : (2 ^ 200 : ℝ) = ((2 ^ 200 : ℚ) : ℝ) := by norm_num
  rw [InRange, InRange, ← Rat.cast_abs, hlow, hhigh, Rat.cast_le, Rat.cast_le, Rat.cast_eq_zero]

lemma map_cast_eq_some {o : Option ℚ} {a : ℝ} (h : o.map (fun q : ℚ => (q : ℝ)) = some a) :
    ∃ q, o = some q ∧ a = q := by
  obtain ⟨q, hq, rfl⟩ := Option.map_eq_some_iff.mp h
  exact ⟨q, hq, rfl⟩

instance : RoundedArithmetic Float where
  real? x := (value? x).map fun q : ℚ => (q : ℝ)
  isFinite_iff x := by
    rw [Double.isFinite_iff]
    constructor
    · rintro ⟨q, hq⟩
      exact ⟨q, by rw [hq]; rfl⟩
    · rintro ⟨a, ha⟩
      obtain ⟨q, hq, -⟩ := map_cast_eq_some ha
      exact ⟨q, hq⟩
  lt_iff hx hy := by
    obtain ⟨a, ha, rfl⟩ := map_cast_eq_some hx
    obtain ⟨b, hb, rfl⟩ := map_cast_eq_some hy
    rw [lt_iff_of_value ha hb, Rat.cast_lt]
  le_iff hx hy := by
    obtain ⟨a, ha, rfl⟩ := map_cast_eq_some hx
    obtain ⟨b, hb, rfl⟩ := map_cast_eq_some hy
    rw [le_iff_of_value ha hb, Rat.cast_le]
  real?_ofNat hn := by
    rw [value?_ofNat hn, Option.map_some, Rat.cast_natCast]
  real?_min hx hy := by
    obtain ⟨a, ha, rfl⟩ := map_cast_eq_some hx
    obtain ⟨b, hb, rfl⟩ := map_cast_eq_some hy
    show (value? (Double.min _ _)).map _ = _
    rw [value?_min ha hb, Option.map_some, Rat.cast_min]
  real?_max hx hy := by
    obtain ⟨a, ha, rfl⟩ := map_cast_eq_some hx
    obtain ⟨b, hb, rfl⟩ := map_cast_eq_some hy
    show (value? (Double.max _ _)).map _ = _
    rw [value?_max ha hb, Option.map_some, Rat.cast_max]
  real?_round hx := by
    obtain ⟨a, ha, rfl⟩ := map_cast_eq_some hx
    rw [value?_round ha, ← round_eq, Option.map_some, Rat.round_cast, Rat.cast_intCast]
  near_add hx hy hab := by
    obtain ⟨a, ha, rfl⟩ := map_cast_eq_some hx
    obtain ⟨b, hb, rfl⟩ := map_cast_eq_some hy
    rw [← Rat.cast_add] at hab ⊢
    obtain ⟨r, hr, hnear⟩ := Double.near_add ha hb (inRange_cast.mp hab)
    exact ⟨r, by rw [hr]; rfl, near_cast.mpr hnear⟩
  near_mul hx hy hab := by
    obtain ⟨a, ha, rfl⟩ := map_cast_eq_some hx
    obtain ⟨b, hb, rfl⟩ := map_cast_eq_some hy
    rw [← Rat.cast_mul] at hab ⊢
    obtain ⟨r, hr, hnear⟩ := Double.near_mul ha hb (inRange_cast.mp hab)
    exact ⟨r, by rw [hr]; rfl, near_cast.mpr hnear⟩
  near_div hx hy hne hab := by
    obtain ⟨a, ha, rfl⟩ := map_cast_eq_some hx
    obtain ⟨b, hb, rfl⟩ := map_cast_eq_some hy
    rw [← Rat.cast_div] at hab ⊢
    obtain ⟨r, hr, hnear⟩ :=
      Double.near_div ha hb (by exact_mod_cast hne) (inRange_cast.mp hab)
    exact ⟨r, by rw [hr]; rfl, near_cast.mpr hnear⟩
  near_billionth := by
    have hvalue : value? (1e-9 : Float) = some (4835703278458517 * 2 ^ (-82 : ℤ)) := rfl
    refine ⟨((4835703278458517 * 2 ^ (-82 : ℤ) : ℚ) : ℝ), by rw [hvalue]; rfl, ?_⟩
    unfold Near
    push_cast
    rw [abs_le, abs_of_pos (by positivity)]
    constructor <;> norm_num

end Double

/-! ## Numbers up to rounding -/

namespace Within

variable {n : ℕ} {r q r' q' c : ℝ}

lemma refl (q : ℝ) : Within 0 q q := by
  unfold Within
  rw [pow_zero, pow_zero, one_mul]
  exact ⟨le_rfl, le_rfl⟩

lemma nonneg (hq : 0 ≤ q) (h : Within n r q) : 0 ≤ r :=
  le_trans (mul_nonneg (pow_nonneg (by norm_num) n) hq) h.1

/-- One more error. -/
lemma near (hq : 0 ≤ q) (h : Within n r q) (hnear : Near r' r) : Within (n + 1) r' q := by
  have hr := h.nonneg hq
  rw [Near, abs_le, abs_of_nonneg hr] at hnear
  constructor
  · calc (1 - 1 / 2 ^ 53) ^ (n + 1) * q = (1 - 1 / 2 ^ 53) * ((1 - 1 / 2 ^ 53) ^ n * q) := by ring
      _ ≤ (1 - 1 / 2 ^ 53) * r := mul_le_mul_of_nonneg_left h.1 (by norm_num)
      _ ≤ r' := by linarith [hnear.1]
  · calc r' ≤ (1 + 1 / 2 ^ 53) * r := by linarith [hnear.2]
      _ ≤ (1 + 1 / 2 ^ 53) * ((1 + 1 / 2 ^ 53) ^ n * q) :=
        mul_le_mul_of_nonneg_left h.2 (by norm_num)
      _ = (1 + 1 / 2 ^ 53) ^ (n + 1) * q := by ring

lemma add (h : Within n r q) (h' : Within n r' q') : Within n (r + r') (q + q') := by
  unfold Within at *
  rw [mul_add, mul_add]
  exact ⟨add_le_add h.1 h'.1, add_le_add h.2 h'.2⟩

lemma mul_right (hc : 0 ≤ c) (h : Within n r q) : Within n (r * c) (q * c) := by
  unfold Within at *
  rw [← mul_assoc, ← mul_assoc]
  exact ⟨mul_le_mul_of_nonneg_right h.1 hc, mul_le_mul_of_nonneg_right h.2 hc⟩

/-- Up to three errors change a number by very little. -/
lemma bounds (hn : n ≤ 3) (hq : 0 ≤ q) (h : Within n r q) :
    q - q / 2 ^ 51 ≤ r ∧ r ≤ q + q / 2 ^ 51 := by
  have hlow : (1 - 1 / 2 ^ 53 : ℝ) ^ 3 ≤ (1 - 1 / 2 ^ 53) ^ n :=
    pow_le_pow_of_le_one (by norm_num) (by norm_num) hn
  have hhigh : (1 + 1 / 2 ^ 53 : ℝ) ^ n ≤ (1 + 1 / 2 ^ 53) ^ 3 :=
    pow_le_pow_right₀ (by norm_num) hn
  constructor
  · calc q - q / 2 ^ 51 = (1 - 1 / 2 ^ 51) * q := by ring
      _ ≤ (1 - 1 / 2 ^ 53) ^ 3 * q := mul_le_mul_of_nonneg_right (by norm_num) hq
      _ ≤ (1 - 1 / 2 ^ 53) ^ n * q := mul_le_mul_of_nonneg_right hlow hq
      _ ≤ r := h.1
  · calc r ≤ (1 + 1 / 2 ^ 53) ^ n * q := h.2
      _ ≤ (1 + 1 / 2 ^ 53) ^ 3 * q := mul_le_mul_of_nonneg_right hhigh hq
      _ ≤ (1 + 1 / 2 ^ 51) * q := mul_le_mul_of_nonneg_right (by norm_num) hq
      _ = q + q / 2 ^ 51 := by ring

/-- A count of frames is the whole number nearest to it. -/
lemma round_count {k : ℕ} (hn : n ≤ 3) (hk : k ≤ 2 ^ 40) (h : Within n r k) : round r = (k : ℤ) := by
  have hk' : (k : ℝ) ≤ 2 ^ 40 := by exact_mod_cast hk
  obtain ⟨hlow, hhigh⟩ := h.bounds hn (Nat.cast_nonneg k)
  rw [round_eq, Int.floor_eq_iff]
  push_cast
  constructor <;> linarith

end Within

lemma Moderate.nonneg {q : ℝ} (h : Moderate q) : 0 ≤ q := by
  rcases h with rfl | ⟨hlow, -⟩
  · exact le_rfl
  · exact le_trans (by norm_num) hlow

/-- A number of moderate size is in range, and so is what it becomes by a few errors. -/
lemma Moderate.inRange {n : ℕ} {r q : ℝ} (hn : n ≤ 3) (hq : Moderate q) (h : Within n r q) :
    InRange r := by
  obtain ⟨hlow, hhigh⟩ := h.bounds hn hq.nonneg
  rcases hq with rfl | ⟨hmin, hmax⟩
  · left
    linarith
  · right
    have hr : 1 / 2 ^ 101 ≤ r := by
      calc (1 / 2 ^ 101 : ℝ) ≤ 1 / 2 ^ 100 - 1 / 2 ^ 100 / 2 ^ 51 := by norm_num
        _ ≤ q - q / 2 ^ 51 := by linarith
        _ ≤ r := hlow
    have hr' : r ≤ 2 ^ 101 := by
      calc r ≤ q + q / 2 ^ 51 := hhigh
        _ ≤ 2 ^ 101 := by linarith
    rw [abs_of_pos (lt_of_lt_of_le (by norm_num) hr)]
    exact ⟨le_trans (by norm_num) hr, hr'.trans (by norm_num)⟩

/-! ## Scalars up to rounding -/

section

variable {R : Type} [Scalar R] [RoundedArithmetic R]

open RoundedArithmetic

/-- A scalar is a number up to `n` errors. -/
def RoundsTo (x : R) (n : ℕ) (q : ℝ) : Prop := ∃ r, real? x = some r ∧ Within n r q

variable {x y : R} {n : ℕ} {q q' c : ℝ}

/-- A quotient of exact numbers has one error. -/
lemma roundsTo_div {a b : ℝ} (hx : real? x = some a) (hy : real? y = some b) (hb : b ≠ 0)
    (hq : Moderate (a / b)) : RoundsTo (x / y) 1 (a / b) := by
  obtain ⟨r, hr, hnear⟩ := near_div hx hy hb (hq.inRange (by omega) (.refl _))
  exact ⟨r, hr, (Within.refl _).near hq.nonneg hnear⟩

namespace RoundsTo

/-- A product with an exact number has one more error. -/
lemma mul (hx : RoundsTo x n q) (hy : real? y = some c) (hn : n ≤ 3) (hc : 0 ≤ c)
    (hq : Moderate (q * c)) : RoundsTo (x * y) (n + 1) (q * c) := by
  obtain ⟨r, hr, hwithin⟩ := hx
  have hmul := hwithin.mul_right hc
  obtain ⟨r', hr', hnear⟩ := near_mul hr hy (hq.inRange hn hmul)
  exact ⟨r', hr', hmul.near hq.nonneg hnear⟩

/-- A sum has one more error than its parts. -/
lemma add (hx : RoundsTo x n q) (hy : RoundsTo y n q') (hn : n ≤ 3)
    (hq : Moderate (q + q')) : RoundsTo (x + y) (n + 1) (q + q') := by
  obtain ⟨r, hr, hwithin⟩ := hx
  obtain ⟨r', hr', hwithin'⟩ := hy
  have hadd := hwithin.add hwithin'
  obtain ⟨r'', hr'', hnear⟩ := near_add hr hr' (hq.inRange hn hadd)
  exact ⟨r'', hr'', hadd.near hq.nonneg hnear⟩

lemma isFinite (h : RoundsTo x n q) : Scalar.isFinite x = true := by
  obtain ⟨r, hr, -⟩ := h
  exact (isFinite_iff x).mpr ⟨r, hr⟩

/-- A count of frames that is known up to three errors is found again by rounding. -/
lemma real?_round {k : ℕ} (h : RoundsTo x n k) (hn : n ≤ 3) (hk : k ≤ 2 ^ 40) :
    real? (Scalar.round x) = some (k : ℝ) := by
  obtain ⟨r, hr, hwithin⟩ := h
  rw [RoundedArithmetic.real?_round hr, hwithin.round_count hn hk, Int.cast_natCast]

end RoundsTo

end

end EndlessRemix
