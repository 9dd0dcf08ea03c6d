import EndlessRemix.Proofs.Number.Monotone

/-!
# The numbers that are rounded to a double

A double stands for the numbers that no other double is nearer to. They reach halfway to its
neighbours, of which the lower one is only half as far away if the mantissa is the least full one;
the ends belong to them if the mantissa is even. A number that is scaled by a power of ten, as it is
when a numeral is read, is rounded only once.
-/

namespace EndlessRemix

open Float.Model (Format UnpackedFloat)
open Float.Model.UnpackedFloat

namespace Double

/-! ## The interval of a double -/

/-- How far down the interval of a double reaches, in units of its last place. -/
def lowerReach (n : ℕ) (f : ℤ) : ℚ := if n = 2 ^ 52 ∧ -1074 < f then 1 / 4 else 1 / 2

lemma lowerReach_le (n : ℕ) (f : ℤ) : lowerReach n f ≤ 1 / 2 := by
  unfold lowerReach
  split_ifs <;> norm_num

lemma lowerReach_pos (n : ℕ) (f : ℤ) : 0 < lowerReach n f := by
  unfold lowerReach
  split_ifs <;> norm_num

/-- A number that no double is nearer to than the one with the given parts. -/
structure Nearest (q : ℚ) (n : ℕ) (f : ℤ) : Prop where
  low : (n - lowerReach n f) * 2 ^ f ≤ q
  high : q ≤ (n + 1 / 2) * 2 ^ f
  inside : Odd n → (n - lowerReach n f) * 2 ^ f < q ∧ q < (n + 1 / 2) * 2 ^ f

section

variable {q : ℚ} {r n : ℕ} {f place : ℤ} {s : Sign} {hn : 0 < n}

lemma nearest_of_even (h : Even n) :
    Nearest q n f ↔ (n - lowerReach n f) * 2 ^ f ≤ q ∧ q ≤ (n + 1 / 2) * 2 ^ f :=
  ⟨fun hq => ⟨hq.low, hq.high⟩,
    fun hq => ⟨hq.1, hq.2, fun hodd => absurd h (Nat.not_even_iff_odd.mpr hodd)⟩⟩

lemma nearest_of_odd (h : Odd n) :
    Nearest q n f ↔ (n - lowerReach n f) * 2 ^ f < q ∧ q < (n + 1 / 2) * 2 ^ f :=
  ⟨fun hq => hq.inside h, fun hq => ⟨hq.1.le, hq.2.le, fun _ => hq⟩⟩

lemma Nearest.pos (h : Nearest q n f) (hn : 0 < n) : 0 < q := by
  have hn1 : (1 : ℚ) ≤ n := by exact_mod_cast hn
  have hreach := lowerReach_le n f
  have hlow : (0 : ℚ) < (n - lowerReach n f) * 2 ^ f := mul_pos (by linarith) (by positivity)
  exact hlow.trans_le h.low

/-- A number is rounded to a double that it is near enough to. -/
lemma nearest_of_abs_lt (h : |q - n * 2 ^ f| < lowerReach n f * 2 ^ f) : Nearest q n f := by
  have hreach : lowerReach n f * 2 ^ f ≤ 1 / 2 * 2 ^ f :=
    mul_le_mul_of_nonneg_right (lowerReach_le n f) (by positivity)
  obtain ⟨hlow, hhigh⟩ := abs_lt.mp h
  have hlow' : (n - lowerReach n f) * 2 ^ f < q := by linarith
  have hhigh' : q < (n + 1 / 2) * 2 ^ f := by linarith
  exact ⟨hlow'.le, hhigh'.le, fun _ => ⟨hlow', hhigh'⟩⟩

/-- At the place of a double no number of its interval is counted below its mantissa. -/
lemma Rounded.mantissa_le (h : Rounded q r f) (hq : Nearest q n f) : n ≤ r := by
  by_contra hlt
  have h2 : (0 : ℚ) < 2 ^ f := by positivity
  have hreach : ((n : ℚ) - 1 / 2) * 2 ^ f ≤ (n - lowerReach n f) * 2 ^ f :=
    mul_le_mul_of_nonneg_right (by linarith [lowerReach_le n f]) h2.le
  have hnear := (abs_le.mp h.near).1
  have hlow := hq.low
  have hnext : (r : ℚ) + 1 ≤ n := by exact_mod_cast not_le.mp hlt
  have hmul : ((r : ℚ) + 1) * 2 ^ f ≤ n * 2 ^ f := mul_le_mul_of_nonneg_right hnext h2.le
  -- the number is halfway between two, where the count is even and the mantissa is odd
  have htie : |(r : ℚ) * 2 ^ f - q| = 2 ^ f / 2 := by
    rw [abs_of_neg (by linarith)]
    linarith
  have hle : (n : ℚ) ≤ r + 1 := le_of_mul_le_mul_right (by linarith) h2
  have hn : n = r + 1 := le_antisymm (by exact_mod_cast hle) (not_le.mp hlt)
  have hodd : Odd n := hn ▸ (h.even htie).add_one
  linarith [(hq.inside hodd).1]

/-- At the place of a double no number of its interval is counted above its mantissa. -/
lemma Rounded.le_mantissa (h : Rounded q r f) (hq : Nearest q n f) : r ≤ n := by
  by_contra hlt
  have h2 : (0 : ℚ) < 2 ^ f := by positivity
  have hnear := (abs_le.mp h.near).2
  have hhigh := hq.high
  have hnext : (n : ℚ) + 1 ≤ r := by exact_mod_cast not_le.mp hlt
  have hmul : ((n : ℚ) + 1) * 2 ^ f ≤ r * 2 ^ f := mul_le_mul_of_nonneg_right hnext h2.le
  have htie : |(r : ℚ) * 2 ^ f - q| = 2 ^ f / 2 := by
    rw [abs_of_pos (by linarith)]
    linarith
  have hle : (r : ℚ) ≤ n + 1 := le_of_mul_le_mul_right (by linarith) h2
  have hr : r = n + 1 := le_antisymm (by exact_mod_cast hle) (not_le.mp hlt)
  have hodd : Odd n := by
    have heven := h.even htie
    rwa [hr, Nat.even_add_one, Nat.not_even_iff_odd] at heven
  linarith [(hq.inside hodd).2]

/-- Only at the least full mantissa are numbers of the interval rounded at a lower place, and it is
the next one. -/
lemma Rounded.lower_place (h : Rounded q r place) (hfull : 2 ^ 52 ≤ n) (hq : Nearest q n f)
    (hlt : place < f) : n = 2 ^ 52 ∧ f = place + 1 := by
  have hreach := lowerReach_le n f
  have hbound : (n - lowerReach n f) * 2 ^ f < 2 ^ 52 * (2 * 2 ^ place) := by
    calc (n - lowerReach n f) * 2 ^ f ≤ q := hq.low
      _ < 2 ^ 53 * 2 ^ place := h.lt
      _ = 2 ^ 52 * (2 * 2 ^ place) := by ring
  have hn : n = 2 ^ 52 := by
    have hbelow : (n : ℚ) - lowerReach n f < 2 ^ 52 := by
      apply lt_of_mul_lt_mul_right _ (zpow_pos two_pos f).le
      exact hbound.trans_le (mul_le_mul_of_nonneg_left (two_mul_two_pow_le hlt) (by norm_num))
    have hcast : (n : ℚ) < (2 ^ 52 + 1 : ℕ) := by
      push_cast
      linarith
    have hnat : n < 2 ^ 52 + 1 := by exact_mod_cast hcast
    omega
  refine ⟨hn, ?_⟩
  by_contra hne
  have hfour : 2 * (2 ^ place * 2) ≤ (2 : ℚ) ^ f := by
    rw [← zpow_add_one₀ (by norm_num)]
    exact two_mul_two_pow_le (by omega)
  have hpos : (0 : ℚ) < 2 ^ place := by positivity
  have hcast : (n : ℚ) = 2 ^ 52 := by exact_mod_cast hn
  have hmul : ((2 : ℚ) ^ 52 - 1 / 2) * (2 * (2 ^ place * 2)) ≤ (n - lowerReach n f) * 2 ^ f :=
    mul_le_mul (by linarith) hfour (by positivity) (by linarith)
  linarith

/-- Below a power of two the numbers of its interval have one more place, and they are counted as
the power of two there. -/
lemma Rounded.eq_of_lower_place (h : Rounded q r place) (hfull : 2 ^ 52 ≤ n) (hq : Nearest q n f)
    (hlt : place < f) : (r : ℚ) * 2 ^ place = n * 2 ^ f := by
  obtain ⟨hn, rfl⟩ := h.lower_place hfull hq hlt
  have h2 : (0 : ℚ) < 2 ^ place := by positivity
  have hquarter : lowerReach n (place + 1) = 1 / 4 := if_pos ⟨hn, by have := h.least; omega⟩
  have hlow := hq.low
  have hnear := (abs_le.mp h.near).1
  rw [hquarter, hn, zpow_add_one₀ (by norm_num)] at hlow
  push_cast at hlow
  have hle : r ≤ 2 ^ 53 := h.le_two_pow
  have hge : 2 ^ 53 - 1 ≤ r := by
    have hcast : ((2 ^ 53 - 1 : ℕ) : ℚ) ≤ r := by
      apply le_of_mul_le_mul_right _ h2
      push_cast
      linarith
    exact_mod_cast hcast
  have hne : r ≠ 2 ^ 53 - 1 := by
    rintro rfl
    -- halfway between two counts the odd one is not taken
    have htie : |((2 ^ 53 - 1 : ℕ) : ℚ) * 2 ^ place - q| = 2 ^ place / 2 := by
      push_cast at hnear ⊢
      rw [abs_of_neg (by linarith)]
      linarith
    exact absurd (h.even htie) (by decide)
  have hr : r = 2 ^ 53 := by omega
  rw [hr, hn, zpow_add_one₀ (by norm_num)]
  push_cast
  ring

/-- The numbers of the interval of a double are rounded to it. -/
lemma Rounded.eq_of_nearest (h : Rounded q r place) (hc : Canonical (.finite s n f hn))
    (hq : Nearest q n f) : (r : ℚ) * 2 ^ place = n * 2 ^ f := by
  obtain ⟨hlt, hfull, hleast, -⟩ := hc
  have hplace := h.least
  rcases lt_trichotomy place f with hbelow | rfl | habove
  · exact h.eq_of_lower_place (hfull.resolve_right (by omega)) hq hbelow
  · rw [le_antisymm (h.le_mantissa hq) (h.mantissa_le hq)]
  · -- the interval ends before the numbers that are rounded at a higher place
    exfalso
    have hdouble := two_mul_two_pow_le habove
    have hlt' : (n : ℚ) + 1 ≤ 2 ^ 53 := by exact_mod_cast hlt
    have hhigh : q < 2 ^ 53 * 2 ^ f := by
      apply hq.high.trans_lt
      exact mul_lt_mul_of_pos_right (by linarith) (by positivity)
    linarith [h.full (by omega)]

/-- A double is rounded from the numbers of its interval. -/
lemma RoundedFrom.eq_of_nearest {x : Float} (h : RoundedFrom q x)
    (hc : Canonical (.finite .positive n f hn)) (hq : Nearest q n f) :
    value? x = some ((n : ℚ) * 2 ^ f) := by
  rcases h with ⟨rfl, -⟩ | ⟨-, hrounded, hvalue | ⟨-, hlarge⟩⟩
  · exact absurd (hq.pos hn) (lt_irrefl 0)
  · rw [hvalue, ← hrounded.eq_of_nearest hc hq]
    rfl
  · rw [hrounded.eq_of_nearest hc hq] at hlarge
    exact absurd (lt_of_canonical hc) hlarge.not_gt

/-- What is written with all its places is rounded to the double in whose interval it is. -/
lemma value?_roundWithAccuracy {m : ℕ} {e : ℤ} (hm : 0 < m) (he : e ≤ lastPlace m e)
    (hc : Canonical (.finite .positive n f hn)) (hq : Nearest (m * 2 ^ e) n f) :
    value? (packed (roundWithAccuracy .binary64 .positive m e .exact)) = some ((n : ℚ) * 2 ^ f) :=
  (RoundedFrom.of_roundWithAccuracy hm he).eq_of_nearest hc hq

/-- A product of positive doubles is the double in whose interval it is. -/
lemma value?_mul_of_nearest {x y : Float} {a b : ℚ} (hx : value? x = some a) (ha : 0 ≤ a)
    (hy : value? y = some b) (hb : 0 ≤ b) (hc : Canonical (.finite .positive n f hn))
    (hq : Nearest (a * b) n f) : value? (x * y) = some ((n : ℚ) * 2 ^ f) :=
  (RoundedFrom.mul hx ha hy hb).eq_of_nearest hc hq

end

/-! ## Powers of ten -/

lemma value?_of_datum {x : Float} {m : ℕ} {e : ℤ} (h : datum x = .finite false m e) :
    value? x = some ((m : ℚ) * 2 ^ e) := by
  rw [datum_eq] at h
  unfold value?
  generalize unpacked x = u at *
  cases u with
  | notANumber => cases h
  | infinity s => cases h
  | zero s =>
    obtain rfl : 0 = m := (Datum.finite.inj h).2.1
    simp [valueOf]
  | finite s k g hk =>
    obtain ⟨hsign, rfl, rfl⟩ := Datum.finite.inj h
    cases s with
    | positive => rfl
    | negative => cases hsign

/-- The powers of ten that are doubles, as they are tabulated. -/
lemma datum_powersOfTen : ∀ (e : ℕ) (he : e < 23),
    datum (getElem Float.exactlyRepresentablePowersOfTen e he)
        = .finite false (10 ^ e * 2 ^ 52 / 2 ^ (10 ^ e).log2) ((10 ^ e).log2 - 52)
      ∧ 2 ^ (10 ^ e).log2 ∣ 10 ^ e * 2 ^ 52 := by
  decide +kernel

lemma value?_powersOfTen {e : ℕ} (he : e < 23) :
    value? (getElem Float.exactlyRepresentablePowersOfTen e he) = some ((10 : ℚ) ^ e) := by
  obtain ⟨hdatum, hdvd⟩ := datum_powersOfTen e he
  rw [value?_of_datum hdatum, Nat.cast_div hdvd (by positivity), zpow_sub₀ (by norm_num),
    zpow_natCast]
  push_cast
  congr 1
  field_simp

section

variable {q : ℚ} {n : ℕ} {f : ℤ} {hn : 0 < n} {m e k : ℕ}

/-- The interval of a double has no high powers of ten. -/
lemma Nearest.exponent_lt (hc : Canonical (.finite .positive n f hn)) (hq : Nearest q n f)
    (hk : (10 : ℚ) ^ k ≤ q) : k < 342 := by
  have hn1 : (1 : ℚ) ≤ n := by exact_mod_cast hn
  have hlt : (2 : ℚ) ^ ((3 * k : ℕ) : ℤ) < 2 ^ (1025 : ℤ) := by
    calc (2 : ℚ) ^ ((3 * k : ℕ) : ℤ) = 8 ^ k := by
          rw [zpow_natCast, pow_mul]
          norm_num
      _ ≤ 10 ^ k := pow_le_pow_left₀ (by norm_num) (by norm_num) k
      _ ≤ q := hk
      _ ≤ (n + 1 / 2) * 2 ^ f := hq.high
      _ ≤ 2 * (n * 2 ^ f) := by
        rw [← mul_assoc]
        exact mul_le_mul_of_nonneg_right (by linarith) (by positivity)
      _ < 2 * 2 ^ (1024 : ℤ) := mul_lt_mul_of_pos_left (lt_of_canonical hc) two_pos
      _ = 2 ^ (1025 : ℤ) := (zpow_one_add₀ (by norm_num) _).symm
  have hexponent : ((3 * k : ℕ) : ℤ) < 1025 := (zpow_lt_zpow_iff_right₀ one_lt_two).mp hlt
  omega

/-- Shifted by 53 bits, a natural that is scaled by a power of ten has all its places. -/
lemma le_lastPlace_shiftLeft (hm : 0 < m) (e : ℕ) :
    (-53 : ℤ) + 0 ≤ lastPlace (m <<< 53 * 10 ^ e) (-53 + 0) := by
  have hlarge : 2 ^ 52 ≤ m <<< 53 * 10 ^ e := by
    calc 2 ^ 52 ≤ 1 * 2 ^ 53 * 1 := by norm_num
      _ ≤ m <<< 53 * 10 ^ e := by
        rw [Nat.shiftLeft_eq]
        gcongr
        · exact hm
        · exact Nat.one_le_pow _ _ (by norm_num)
  have hlog : 52 ≤ (m <<< 53 * 10 ^ e).log2 := (Nat.le_log2 (by omega)).mpr hlarge
  unfold lastPlace
  omega

lemma shiftLeft_mul_two_pow (m e : ℕ) :
    ((m <<< 53 * 10 ^ e : ℕ) : ℚ) * 2 ^ (-53 + 0 : ℤ) = m * 10 ^ e := by
  rw [Nat.shiftLeft_eq]
  push_cast
  field_simp
  norm_num

/-- A natural that is scaled by a power of ten is the double in whose interval it is. -/
theorem value?_ofScientific (hm : 0 < m) (hc : Canonical (.finite .positive n f hn))
    (hq : Nearest (m * 10 ^ e) n f) :
    value? (Float.ofScientific m false e) = some ((n : ℚ) * 2 ^ f) := by
  rw [Float.ofScientific]
  by_cases hfast : m < 2 ^ 53 ∧ e ≤ 22
  · -- both factors are doubles
    rw [dif_pos hfast]
    exact value?_mul_of_nearest (value?_toFloat hfast.1) (by positivity)
      (value?_powersOfTen (by omega)) (by positivity) hc hq
  · have hm1 : (1 : ℚ) ≤ m := by exact_mod_cast hm
    have hsmall := hq.exponent_lt hc (le_mul_of_one_le_left (by positivity) hm1)
    have hshifted : 0 < m <<< 53 * 10 ^ e := by
      rw [Nat.shiftLeft_eq]
      positivity
    rw [dif_neg hfast]
    show value? (packed (Float.Model.UnpackedFloat.ofScientific .binary64 m (e : ℤ))) = _
    rw [Float.Model.UnpackedFloat.ofScientific, dif_neg hm.ne', if_neg, if_neg,
      if_pos (Int.natCast_nonneg e)]
    · rw [← shiftLeft_mul_two_pow] at hq
      exact value?_roundWithAccuracy hshifted (le_lastPlace_shiftLeft hm e) hc hq
    · show ¬(e : ℤ) < -(2 ^ 11 + (m.log2 : ℤ))
      omega
    · show ¬(e : ℤ) > 2 ^ 11
      omega

end

end Double

end EndlessRemix
