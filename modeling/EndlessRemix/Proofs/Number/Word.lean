import Mathlib
import EndlessRemix.Number.Datum

/-!
# Words of numbers

What a word of an interchange format stands for, for every width of its fields. A format holds a
mantissa with an exponent if the mantissa fills its places, or the exponent is the least one
(`WordFormat.Holds`). Such a number is encoded by counting in units of the last place, and decoding
the word gives the same mantissa and exponent back, so encoding it is exact.
-/

namespace EndlessRemix

/-! ## Mantissas -/

section

variable {m n : ℕ} {e f : ℤ}

lemma log2_mul_two_pow (hm : 0 < m) (n : ℕ) : (m * 2 ^ n).log2 = m.log2 + n := by
  have hlo : 2 ^ m.log2 ≤ m := Nat.log2_self_le hm.ne'
  have hhi : m < 2 ^ (m.log2 + 1) := Nat.lt_log2_self
  rw [Nat.log2_eq_iff (by positivity)]
  constructor
  · rw [pow_add]
    exact Nat.mul_le_mul_right _ hlo
  · rw [add_right_comm, pow_add]
    exact Nat.mul_lt_mul_of_pos_right hhi (by positivity)

/-- Two ways to write a number differ by zeros at the end of one mantissa. -/
lemma shift_cases (h : (m : ℚ) * 2 ^ e = n * 2 ^ f) :
    (∃ k : ℕ, m = n * 2 ^ k ∧ e = f - k) ∨ (∃ k : ℕ, n = m * 2 ^ k ∧ f = e - k) := by
  have key : ∀ {m n : ℕ} {e f : ℤ}, (m : ℚ) * 2 ^ e = n * 2 ^ f → e ≤ f →
      ∃ k : ℕ, m = n * 2 ^ k ∧ e = f - k := by
    intro m n e f h hle
    refine ⟨(f - e).toNat, ?_, by omega⟩
    have he : (2 : ℚ) ^ e ≠ 0 := by positivity
    have hf : (2 : ℚ) ^ f = 2 ^ (f - e).toNat * 2 ^ e := by
      rw [← zpow_natCast, ← zpow_add₀ (by norm_num)]
      congr 1
      omega
    rw [hf, ← mul_assoc] at h
    exact_mod_cast mul_right_cancel₀ he h
  rcases le_total e f with hle | hle
  · exact .inl (key h hle)
  · exact .inr (key h.symm hle)

end

/-! ## What a format holds -/

namespace WordFormat

/-- The mantissa fills the places of the format, unless the exponent is the least one, and the
exponent is in range. -/
structure Holds (f : WordFormat) (m : ℕ) (e : ℤ) : Prop where
  lt : m < 2 ^ (f.fractionBits + 1)
  full : 2 ^ f.fractionBits ≤ m ∨ e = f.leastExponent
  least : f.leastExponent ≤ e
  top : e + 2 ≤ f.leastExponent + f.topField

/-- A natural with few enough places, scaled by a power of two in range, is held by the format. -/
lemma exists_holds (f : WordFormat) {k : ℕ} {e : ℤ} (hk : 0 < k)
    (hlt : k < 2 ^ (f.fractionBits + 1)) (hlow : f.leastExponent + f.fractionBits ≤ e)
    (hhigh : e + 2 ≤ f.leastExponent + f.topField) :
    ∃ (m : ℕ) (g : ℤ), 0 < m ∧ f.Holds m g ∧ (k : ℚ) * 2 ^ e = m * 2 ^ g := by
  have hlog : k.log2 < f.fractionBits + 1 := (Nat.log2_lt hk.ne').mpr hlt
  have hlo : 2 ^ k.log2 ≤ k := Nat.log2_self_le hk.ne'
  have hhi : k < 2 ^ (k.log2 + 1) := Nat.lt_log2_self
  obtain ⟨j, hj⟩ : ∃ j, k.log2 + j = f.fractionBits := ⟨f.fractionBits - k.log2, by omega⟩
  have hlo' : 2 ^ f.fractionBits ≤ k * 2 ^ j := by
    rw [← hj, pow_add]
    exact Nat.mul_le_mul_right _ hlo
  have hhi' : k * 2 ^ j < 2 ^ (f.fractionBits + 1) := by
    rw [← hj, add_right_comm, pow_add]
    exact Nat.mul_lt_mul_of_pos_right hhi (by positivity)
  refine ⟨k * 2 ^ j, e - j, by positivity, ⟨hhi', .inl hlo', by omega, by omega⟩, ?_⟩
  have h2 : (2 : ℚ) ^ e = 2 ^ j * 2 ^ (e - j) := by
    rw [← zpow_natCast, ← zpow_add₀ (by norm_num)]
    congr 1
    ring
  rw [h2, Nat.cast_mul, Nat.cast_pow, Nat.cast_ofNat, mul_assoc]

/-! ## Fields of a word -/

lemma signed_eq (f : WordFormat) (negative : Bool) (n : ℕ) :
    encode.signed f negative n
      = n + 2 ^ f.fractionBits * (2 ^ f.exponentBits * negative.toNat) := by
  cases negative
  · simp [encode.signed]
  · simp [encode.signed, pow_add, Nat.add_comm]

/-- What the three fields of a word stand for. -/
lemma decode_fields (f : WordFormat) (negative : Bool) {field fraction : ℕ}
    (hfield : field < 2 ^ f.exponentBits) (hfraction : fraction < 2 ^ f.fractionBits) :
    f.decode (encode.signed f negative (fraction + 2 ^ f.fractionBits * field)) =
      if field = f.topField then if fraction = 0 then .infinite negative else .notANumber
      else if field = 0 then .finite negative fraction f.leastExponent
      else .finite negative (2 ^ f.fractionBits + fraction) (field - 1 + f.leastExponent) := by
  have hP : 0 < 2 ^ f.fractionBits := by positivity
  have hQ : 0 < 2 ^ f.exponentBits := by positivity
  have hword : encode.signed f negative (fraction + 2 ^ f.fractionBits * field)
      = fraction + 2 ^ f.fractionBits * (field + 2 ^ f.exponentBits * negative.toNat) := by
    rw [signed_eq]
    ring
  have hlow : (encode.signed f negative (fraction + 2 ^ f.fractionBits * field))
      % 2 ^ f.fractionBits = fraction := by
    rw [hword, Nat.add_mul_mod_self_left, Nat.mod_eq_of_lt hfraction]
  have hhigh : (encode.signed f negative (fraction + 2 ^ f.fractionBits * field))
      / 2 ^ f.fractionBits = field + 2 ^ f.exponentBits * negative.toNat := by
    rw [hword, Nat.add_mul_div_left _ _ hP, Nat.div_eq_of_lt hfraction, Nat.zero_add]
  have hmid : (field + 2 ^ f.exponentBits * negative.toNat) % 2 ^ f.exponentBits = field := by
    rw [Nat.add_mul_mod_self_left, Nat.mod_eq_of_lt hfield]
  have hsign : (encode.signed f negative (fraction + 2 ^ f.fractionBits * field))
      / 2 ^ (f.fractionBits + f.exponentBits) = negative.toNat := by
    rw [pow_add, ← Nat.div_div_eq_div_mul, hhigh, Nat.add_mul_div_left _ _ hQ,
      Nat.div_eq_of_lt hfield, Nat.zero_add]
  have hbit : (negative.toNat % 2 == 1) = negative := by cases negative <;> rfl
  simp only [decode, Nat.pow_eq, hlow, hhigh, hmid, hsign, hbit]

/-- What is decoded is held by the format. -/
lemma holds_decode (f : WordFormat) (hbits : 2 ≤ f.exponentBits) {word m : ℕ} {e : ℤ}
    {negative : Bool} (h : f.decode word = .finite negative m e) : f.Holds m e := by
  have hP : 2 ^ (f.fractionBits + 1) = 2 ^ f.fractionBits * 2 := pow_succ _ _
  have hfraction : word % 2 ^ f.fractionBits < 2 ^ f.fractionBits :=
    Nat.mod_lt _ (by positivity)
  have hfield : word / 2 ^ f.fractionBits % 2 ^ f.exponentBits < 2 ^ f.exponentBits :=
    Nat.mod_lt _ (by positivity)
  have htop : f.topField = 2 ^ f.exponentBits - 1 := rfl
  have hfour : 2 ^ 2 ≤ 2 ^ f.exponentBits := Nat.pow_le_pow_right (by norm_num) hbits
  simp only [decode, Nat.pow_eq] at h
  split_ifs at h with htopField hzero hzeroField
  · obtain ⟨-, rfl, rfl⟩ := Datum.finite.inj h
    exact ⟨by omega, .inr rfl, le_rfl, by omega⟩
  · obtain ⟨-, rfl, rfl⟩ := Datum.finite.inj h
    exact ⟨by omega, .inl (Nat.le_add_right _ _), by omega, by omega⟩

/-! ## Encoding -/

lemma encode_zero (f : WordFormat) (negative : Bool) (e : ℤ) :
    f.encode (.finite negative 0 e) = encode.signed f negative 0 := by
  rw [encode, if_pos rfl]

/-- Nothing is rounded in a division without a remainder. -/
lemma divNearestEven_mul (m : ℕ) {den : ℕ} (hden : 0 < den) : divNearestEven (m * den) den = m := by
  have hmod : m * den % den = 0 := Nat.mul_mod_left m _
  have hdiv : m * den / den = m := Nat.mul_div_cancel m hden
  simp only [divNearestEven, hmod, hdiv]
  rw [if_neg]
  omega

/-- A quotient is its whole part and what the remainder adds. -/
lemma cast_div_eq (num : ℕ) {den : ℕ} (hden : 0 < den) :
    (num : ℚ) / den = (num / den : ℕ) + ((num % den : ℕ) : ℚ) / den := by
  have hden' : (den : ℚ) ≠ 0 := by exact_mod_cast hden.ne'
  rw [div_eq_iff hden', add_mul, div_mul_cancel₀ _ hden']
  exact_mod_cast (Nat.div_add_mod' num den).symm

/-- What the remainder adds is a fraction. -/
lemma remainder_mem (num : ℕ) {den : ℕ} (hden : 0 < den) :
    (0 : ℚ) ≤ ((num % den : ℕ) : ℚ) / den ∧ ((num % den : ℕ) : ℚ) / den < 1 := by
  have hden' : (0 : ℚ) < den := by exact_mod_cast hden
  refine ⟨by positivity, ?_⟩
  rw [div_lt_one hden']
  exact_mod_cast Nat.mod_lt num hden

/-- Rounding to the nearest natural is off by one half at most. -/
lemma abs_divNearestEven_sub_le (num : ℕ) {den : ℕ} (hden : 0 < den) :
    |(divNearestEven num den : ℚ) - num / den| ≤ 1 / 2 := by
  have hden' : (0 : ℚ) < den := by exact_mod_cast hden
  have hhalf : ((num % den : ℕ) : ℚ) / den ≤ 1 / 2 ↔ 2 * (num % den) ≤ den := by
    rw [div_le_div_iff₀ hden' two_pos, one_mul, mul_comm]
    exact_mod_cast Iff.rfl
  have hhalf' : 1 / 2 ≤ ((num % den : ℕ) : ℚ) / den ↔ den ≤ 2 * (num % den) := by
    rw [div_le_div_iff₀ two_pos hden', one_mul, mul_comm]
    exact_mod_cast Iff.rfl
  obtain ⟨hnonneg, hlt⟩ := remainder_mem num hden
  rw [cast_div_eq num hden, divNearestEven, abs_le]
  split_ifs with hup
  · have := hhalf'.mpr (by omega)
    push_cast
    constructor <;> linarith
  · have := hhalf.mpr (by omega)
    constructor <;> linarith

/-- Halfway between two naturals the even one is taken. -/
lemma even_divNearestEven (num : ℕ) {den : ℕ} (hden : 0 < den)
    (htie : |(divNearestEven num den : ℚ) - num / den| = 1 / 2) : Even (divNearestEven num den) := by
  have hden' : (0 : ℚ) < den := by exact_mod_cast hden
  have hhalf : ((num % den : ℕ) : ℚ) / den = 1 / 2 ↔ 2 * (num % den) = den := by
    rw [div_eq_div_iff hden'.ne' two_ne_zero, one_mul, mul_comm]
    exact_mod_cast Iff.rfl
  obtain ⟨hnonneg, hlt⟩ := remainder_mem num hden
  rw [cast_div_eq num hden] at htie
  rw [divNearestEven] at htie ⊢
  split_ifs at htie ⊢ with hup
  · rw [Nat.cast_add_one, add_sub_add_left_eq_sub, abs_of_pos (by linarith)] at htie
    have htwice := hhalf.mp (by linarith)
    rw [Nat.even_iff]
    omega
  · rw [sub_add_cancel_left, abs_neg, abs_of_nonneg hnonneg] at htie
    have htwice := hhalf.mp htie
    rw [Nat.even_iff]
    omega

section

variable {f : WordFormat} {m n : ℕ} {e g : ℤ}

/-- The last place of a number that the format holds is that of its exponent. -/
lemma Holds.lastPlace_eq (h : f.Holds m e) (hm : 0 < m) :
    max ((m.log2 : ℤ) + e - f.fractionBits) f.leastExponent = e := by
  have hleast := h.least
  have hlog : m.log2 < f.fractionBits + 1 := (Nat.log2_lt hm.ne').mpr h.lt
  rcases h.full with hfull | rfl
  · have : f.fractionBits ≤ m.log2 := (Nat.le_log2 hm.ne').mpr hfull
    omega
  · omega

/-- A number that the format holds is counted in units of its last place. -/
lemma Holds.encodeMagnitude_eq (h : f.Holds m e) (hm : 0 < m)
    (hv : (n : ℚ) * 2 ^ g = m * 2 ^ e) :
    f.encodeMagnitude n g = m + 2 ^ f.fractionBits * (e - f.leastExponent).toNat := by
  have hplace := h.lastPlace_eq hm
  have hlog : (n.log2 : ℤ) + g = m.log2 + e := by
    rcases shift_cases hv with ⟨k, rfl, rfl⟩ | ⟨k, rfl, rfl⟩
    · rw [log2_mul_two_pow hm]
      push_cast
      ring
    · rw [log2_mul_two_pow (Nat.pos_of_mul_pos_right hm)]
      push_cast
      ring
  have hunits : (if e ≤ g then n * 2 ^ (g - e).toNat
      else divNearestEven n (2 ^ (e - g).toNat)) = m := by
    rcases shift_cases hv with ⟨k, rfl, rfl⟩ | ⟨k, rfl, rfl⟩
    · split_ifs with hk
      · obtain rfl : k = 0 := by omega
        simp
      · have hk' : (e - (e - (k : ℤ))).toNat = k := by omega
        rw [hk', divNearestEven_mul m (by positivity)]
    · have hk' : (g - (g - (k : ℤ))).toNat = k := by omega
      rw [if_pos (by omega), hk']
  -- the word stays below the one of infinity
  have hbelow : m + 2 ^ f.fractionBits * (e - f.leastExponent).toNat
      ≤ f.topField * 2 ^ f.fractionBits := by
    obtain ⟨hlt, -, hleast, htop⟩ := h
    calc m + 2 ^ f.fractionBits * (e - f.leastExponent).toNat
        ≤ 2 ^ f.fractionBits * 2 + 2 ^ f.fractionBits * (e - f.leastExponent).toNat := by
          rw [pow_succ] at hlt
          omega
      _ = 2 ^ f.fractionBits * (2 + (e - f.leastExponent).toNat) := by ring
      _ ≤ 2 ^ f.fractionBits * f.topField := Nat.mul_le_mul_left _ (by omega)
      _ = f.topField * 2 ^ f.fractionBits := Nat.mul_comm _ _
  simp only [encodeMagnitude, Nat.pow_eq, hlog, hplace, hunits]
  rw [Nat.mul_comm, Nat.add_comm, min_eq_left hbelow]

lemma Holds.encode_eq (h : f.Holds m e) (hm : 0 < m) (hv : (n : ℚ) * 2 ^ g = m * 2 ^ e)
    (negative : Bool) :
    f.encode (.finite negative n g)
      = encode.signed f negative (m + 2 ^ f.fractionBits * (e - f.leastExponent).toNat) := by
  have hn : n ≠ 0 := by
    rintro rfl
    have hpos : (0 : ℚ) < m * 2 ^ e := by positivity
    rw [← hv, Nat.cast_zero, zero_mul] at hpos
    exact lt_irrefl _ hpos
  rw [encode, if_neg hn, h.encodeMagnitude_eq hm hv]

/-- Encoding a number that the format holds, however it is written, is exact. -/
theorem Holds.decode_encode (h : f.Holds m e) (hm : 0 < m) (hv : (n : ℚ) * 2 ^ g = m * 2 ^ e)
    (negative : Bool) : f.decode (f.encode (.finite negative n g)) = .finite negative m e := by
  have htop : f.topField = 2 ^ f.exponentBits - 1 := rfl
  rw [h.encode_eq hm hv]
  obtain ⟨hlt, hfull, hleast, hbound⟩ := h
  obtain ⟨place, rfl⟩ : ∃ place : ℕ, e = f.leastExponent + place :=
    ⟨(e - f.leastExponent).toNat, by omega⟩
  have hplace : (f.leastExponent + (place : ℤ) - f.leastExponent).toNat = place := by omega
  rw [hplace]
  by_cases hlong : 2 ^ f.fractionBits ≤ m
  · -- the leading bit is carried into the exponent field
    obtain ⟨fraction, rfl⟩ : ∃ fraction, m = 2 ^ f.fractionBits + fraction :=
      ⟨m - 2 ^ f.fractionBits, by omega⟩
    have hword : 2 ^ f.fractionBits + fraction + 2 ^ f.fractionBits * place
        = fraction + 2 ^ f.fractionBits * (place + 1) := by ring
    rw [pow_succ] at hlt
    rw [hword, decode_fields f negative (by omega) (by omega), if_neg (by omega),
      if_neg (by omega)]
    congr 1
    push_cast
    ring
  · have hzero : place = 0 := by
      have := hfull.resolve_left hlong
      omega
    rw [hzero, decode_fields f negative (by positivity) (by omega), if_neg (by omega), if_pos rfl]
    congr 1
    omega

/-- The word of a number that the format holds fits into the fields. -/
lemma Holds.encode_lt (h : f.Holds m e) (hm : 0 < m) (hv : (n : ℚ) * 2 ^ g = m * 2 ^ e)
    (negative : Bool) :
    f.encode (.finite negative n g) < 2 ^ (f.fractionBits + f.exponentBits + 1) := by
  have htop : f.topField = 2 ^ f.exponentBits - 1 := rfl
  have hsign : 2 ^ f.exponentBits * negative.toNat ≤ 2 ^ f.exponentBits := by
    cases negative <;> simp
  rw [h.encode_eq hm hv, signed_eq]
  obtain ⟨hlt, -, hleast, hbound⟩ := h
  rw [pow_succ] at hlt
  calc m + 2 ^ f.fractionBits * (e - f.leastExponent).toNat
        + 2 ^ f.fractionBits * (2 ^ f.exponentBits * negative.toNat)
      < 2 ^ f.fractionBits * 2 + 2 ^ f.fractionBits * (e - f.leastExponent).toNat
        + 2 ^ f.fractionBits * (2 ^ f.exponentBits * negative.toNat) := by omega
    _ = 2 ^ f.fractionBits
        * (2 + (e - f.leastExponent).toNat + 2 ^ f.exponentBits * negative.toNat) := by ring
    _ ≤ 2 ^ f.fractionBits * (2 ^ f.exponentBits * 2) := Nat.mul_le_mul_left _ (by omega)
    _ = 2 ^ (f.fractionBits + f.exponentBits + 1) := by ring

end

end WordFormat

end EndlessRemix
