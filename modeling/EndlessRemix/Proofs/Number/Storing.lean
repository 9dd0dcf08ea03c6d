import EndlessRemix.Proofs.Audio.Sample

/-!
# Numbers that are rounded to a format

What a number becomes that a format cannot hold. It is counted in units of its last place, and the
count is the nearest integer, a tie going to the even one. No other number of the format is nearer:
those with the same last place, or a higher one, are counted in the same units, and those with a
lower one are all below the least count.
-/

namespace EndlessRemix

/-! ## Counting in units -/

/-- A number counted in units of a place, to the nearest integer, a tie going to the even one. -/
structure Counted (x : ℚ) (u : ℤ) (place : ℤ) : Prop where
  near : |(u : ℚ) * 2 ^ place - x| ≤ 2 ^ place / 2
  even : |(u : ℚ) * 2 ^ place - x| = 2 ^ place / 2 → Even u

namespace Counted

variable {x : ℚ} {u k : ℤ} {place g : ℤ}

/-- No other count is nearer, and another one is as near only if the count is even. -/
lemma le_of_count (h : Counted x u place) (k : ℤ) :
    |(u : ℚ) * 2 ^ place - x| ≤ |(k : ℚ) * 2 ^ place - x|
      ∧ (|(u : ℚ) * 2 ^ place - x| = |(k : ℚ) * 2 ^ place - x| → k = u ∨ Even u) := by
  by_cases hk : k = u
  · rw [hk]
    exact ⟨le_rfl, fun _ => .inl rfl⟩
  · have h2 : (0 : ℚ) < 2 ^ place := by positivity
    have hone : (1 : ℚ) ≤ |(u : ℚ) - k| := by
      have := Int.one_le_abs (sub_ne_zero.mpr (Ne.symm hk))
      exact_mod_cast this
    have hstep : 2 ^ place ≤ |(u : ℚ) * 2 ^ place - k * 2 ^ place| := by
      rw [← sub_mul, abs_mul, abs_of_pos h2]
      exact le_mul_of_one_le_left h2.le hone
    have htriangle := abs_sub_le ((u : ℚ) * 2 ^ place) x (k * 2 ^ place)
    rw [abs_sub_comm x] at htriangle
    have hnear := h.near
    refine ⟨by linarith, fun heq => .inr (h.even (by linarith))⟩

/-- Nor is a number of a higher place nearer, since it is counted in the same units. -/
lemma le_of_place_le (h : Counted x u place) (hle : place ≤ g) (k : ℤ) :
    |(u : ℚ) * 2 ^ place - x| ≤ |(k : ℚ) * 2 ^ g - x|
      ∧ (|(u : ℚ) * 2 ^ place - x| = |(k : ℚ) * 2 ^ g - x| →
        (k : ℚ) * 2 ^ g = u * 2 ^ place ∨ Even u) := by
  obtain ⟨n, rfl⟩ : ∃ n : ℕ, g = place + n := ⟨(g - place).toNat, by omega⟩
  have hk : (k : ℚ) * 2 ^ (place + (n : ℤ)) = ((k * 2 ^ n : ℤ) : ℚ) * 2 ^ place := by
    rw [zpow_add₀ two_ne_zero, zpow_natCast]
    push_cast
    ring
  obtain ⟨hle, heq⟩ := h.le_of_count (k * 2 ^ n)
  rw [hk]
  exact ⟨hle, fun h => (heq h).imp_left fun h => by rw [h]⟩

/-- What is not above the number is not above its count. -/
lemma le_of_le (h : Counted x u place) (hk : (k : ℚ) * 2 ^ place ≤ x) : k ≤ u := by
  have h2 : (0 : ℚ) < 2 ^ place := by positivity
  have hlow := (abs_le.mp h.near).1
  have hlt : (k : ℚ) < (u + 1 : ℤ) := by
    apply lt_of_mul_lt_mul_right _ h2.le
    push_cast
    linarith
  exact Int.lt_add_one_iff.mp (by exact_mod_cast hlt)

/-- What is not below the number is not below its count. -/
lemma ge_of_ge (h : Counted x u place) (hk : x ≤ (k : ℚ) * 2 ^ place) : u ≤ k := by
  have h2 : (0 : ℚ) < 2 ^ place := by positivity
  have hhigh := (abs_le.mp h.near).2
  have hlt : (u : ℚ) < (k + 1 : ℤ) := by
    apply lt_of_mul_lt_mul_right _ h2.le
    push_cast
    linarith
  exact Int.lt_add_one_iff.mp (by exact_mod_cast hlt)

/-- A number that fills its places is not nearer to any number with as few places, whatever the
place of that. -/
theorem le_of_lt (h : Counted x u place) {n : ℕ} (hfull : 2 ^ n * 2 ^ place ≤ x)
    (hk : k < 2 ^ (n + 1)) (g : ℤ) :
    |(u : ℚ) * 2 ^ place - x| ≤ |(k : ℚ) * 2 ^ g - x|
      ∧ (|(u : ℚ) * 2 ^ place - x| = |(k : ℚ) * 2 ^ g - x| →
        (k : ℚ) * 2 ^ g = u * 2 ^ place ∨ Even u) := by
  rcases le_or_gt place g with hle | hlt
  · exact h.le_of_place_le hle k
  · -- the least number that fills the places lies between the two
    have hbelow : (k : ℚ) * 2 ^ g < 2 ^ n * 2 ^ place := by
      have hk' : (k : ℚ) < 2 ^ (n + 1) := by exact_mod_cast hk
      calc (k : ℚ) * 2 ^ g < 2 ^ (n + 1) * 2 ^ g :=
            mul_lt_mul_of_pos_right hk' (by positivity)
        _ = 2 ^ n * 2 ^ (g + 1) := by
            rw [zpow_add_one₀ two_ne_zero]
            ring
        _ ≤ 2 ^ n * 2 ^ place :=
            mul_le_mul_of_nonneg_left (zpow_le_zpow_right₀ one_le_two hlt) (by positivity)
    have hleast := (h.le_of_count (2 ^ n)).1
    push_cast at hleast
    rw [abs_of_nonpos (by linarith : 2 ^ n * 2 ^ place - x ≤ 0)] at hleast
    rw [abs_of_neg (by linarith : (k : ℚ) * 2 ^ g - x < 0)]
    exact ⟨by linarith, fun heq => absurd heq (by linarith)⟩

end Counted

/-! ## Encoding -/

/-- A sign does not change the size. -/
lemma Datum.abs_signedMantissa (negative : Bool) (m : ℕ) : |signedMantissa negative m| = m := by
  cases negative
  · exact abs_of_nonneg (Int.natCast_nonneg m)
  · rw [signedMantissa, if_pos rfl, abs_neg]
    exact abs_of_nonneg (Int.natCast_nonneg m)

lemma Datum.cast_signedMantissa_true (m : ℕ) : ((signedMantissa true m : ℤ) : ℚ) = -m := by
  rw [signedMantissa, if_pos rfl]
  push_cast
  rfl

namespace WordFormat

variable {f : WordFormat} {m : ℕ} {e : ℤ}

/-- A quotient that is rounded to a natural counts what is divided. -/
lemma counted_divNearestEven (num : ℕ) {den : ℕ} (hden : 0 < den) (place : ℤ) :
    Counted ((num : ℚ) / den * 2 ^ place) (divNearestEven num den) place := by
  have h2 : (0 : ℚ) < 2 ^ place := by positivity
  have hsize : |((divNearestEven num den : ℤ) : ℚ) * 2 ^ place - (num : ℚ) / den * 2 ^ place|
      = |(divNearestEven num den : ℚ) - num / den| * 2 ^ place := by
    rw [← sub_mul, abs_mul, abs_of_pos h2, Int.cast_natCast]
  constructor
  · have hnear := mul_le_mul_of_nonneg_right (abs_divNearestEven_sub_le num hden) h2.le
    rw [hsize]
    linarith
  · intro htie
    have hhalf : |(divNearestEven num den : ℚ) - num / den| = 1 / 2 := by
      apply mul_right_cancel₀ h2.ne'
      rw [← hsize, htie]
      ring
    exact_mod_cast even_divNearestEven num hden hhalf

/-- A number with room above the least place is counted in units of the place that follows from its
leading bit. -/
lemma exists_units (hlow : f.leastExponent + f.fractionBits ≤ m.log2 + e) :
    ∃ u : ℕ, Counted (m * 2 ^ e) u (m.log2 + e - f.fractionBits)
      ∧ f.encodeMagnitude m e
        = min ((m.log2 + e - f.fractionBits - f.leastExponent).toNat * 2 ^ f.fractionBits + u)
            (f.topField * 2 ^ f.fractionBits) := by
  have hplace : max ((m.log2 : ℤ) + e - f.fractionBits) f.leastExponent
      = m.log2 + e - f.fractionBits := max_eq_left (by omega)
  simp only [encodeMagnitude, hplace, Nat.pow_eq]
  generalize (m.log2 : ℤ) + e - f.fractionBits = place
  refine ⟨_, ?_, rfl⟩
  split_ifs with hle
  · -- all places of the number are kept
    have hexact : (((m * 2 ^ (e - place).toNat : ℕ) : ℤ) : ℚ) * 2 ^ place = m * 2 ^ e := by
      have hsplit : e = (e - place).toNat + place := by omega
      conv_rhs => rw [hsplit, zpow_add₀ two_ne_zero, zpow_natCast]
      push_cast
      ring
    have h2 : (0 : ℚ) < 2 ^ place := by positivity
    rw [← hexact]
    constructor
    · rw [sub_self, abs_zero]
      positivity
    · intro htie
      rw [sub_self, abs_zero] at htie
      linarith
  · obtain ⟨n, rfl⟩ : ∃ n : ℕ, place = n + e := ⟨(place - e).toNat, by omega⟩
    have hshift : ((n : ℤ) + e - e).toNat = n := by omega
    have hquotient : (m : ℚ) * 2 ^ e = m / (2 ^ n : ℕ) * 2 ^ ((n : ℤ) + e) := by
      rw [zpow_add₀ two_ne_zero, zpow_natCast]
      push_cast
      field_simp
    rw [hshift, hquotient]
    exact counted_divNearestEven m (by positivity) _

/-- The leading bit of a number tells its size. -/
lemma size_bounds (hm : 0 < m) (e : ℤ) :
    (2 : ℚ) ^ (m.log2 + e) ≤ m * 2 ^ e ∧ (m : ℚ) * 2 ^ e < 2 ^ (m.log2 + 1 + e) := by
  have h2 : (0 : ℚ) < 2 ^ e := by positivity
  have hlow : ((2 ^ m.log2 : ℕ) : ℚ) ≤ m := by exact_mod_cast Nat.log2_self_le hm.ne'
  have hhigh : (m : ℚ) < ((2 ^ (m.log2 + 1) : ℕ) : ℚ) := by exact_mod_cast Nat.lt_log2_self
  push_cast at hlow hhigh
  constructor
  · rw [zpow_add₀ two_ne_zero, zpow_natCast]
    exact mul_le_mul_of_nonneg_right hlow h2.le
  · have hcast : (m.log2 : ℤ) + 1 = ((m.log2 + 1 : ℕ) : ℤ) := by push_cast; rfl
    rw [zpow_add₀ two_ne_zero, hcast, zpow_natCast]
    exact mul_lt_mul_of_pos_right hhigh h2

/-- A number that is counted as one that the format holds is encoded as that one. -/
lemma encode_of_word {r : ℕ} {g : ℤ} (hm : 0 < m) (h : f.Holds r g) (hr : 0 < r)
    (hword : f.encodeMagnitude m e = min (r + 2 ^ f.fractionBits * (g - f.leastExponent).toNat)
      (f.topField * 2 ^ f.fractionBits)) (negative : Bool) :
    f.encode (.finite negative m e) = f.encode (.finite negative r g) := by
  have hle : r + 2 ^ f.fractionBits * (g - f.leastExponent).toNat
      ≤ f.topField * 2 ^ f.fractionBits := by
    rw [← h.encodeMagnitude_eq hr rfl]
    exact min_le_right _ _
  rw [h.encode_eq hr rfl, encode, if_neg hm.ne', hword, min_eq_left hle]

/-- Counted in these units a number has one place more than the fraction, unless it is rounded to the
next power of two. -/
lemma exists_full_units (hm : 0 < m) (hlow : f.leastExponent + f.fractionBits ≤ m.log2 + e) :
    ∃ (place : ℤ) (u : ℕ), (m.log2 : ℤ) + e = f.fractionBits + place
      ∧ Counted (m * 2 ^ e) u place ∧ 2 ^ f.fractionBits * 2 ^ place ≤ (m : ℚ) * 2 ^ e
      ∧ 2 ^ f.fractionBits ≤ u ∧ u ≤ 2 ^ (f.fractionBits + 1)
      ∧ f.encodeMagnitude m e = min ((place - f.leastExponent).toNat * 2 ^ f.fractionBits + u)
          (f.topField * 2 ^ f.fractionBits) := by
  obtain ⟨u, hcounted, hword⟩ := exists_units hlow
  obtain ⟨hsize, hsize'⟩ := size_bounds hm e
  obtain ⟨place, hplace⟩ : ∃ place : ℤ, (m.log2 : ℤ) + e = f.fractionBits + place :=
    ⟨m.log2 + e - f.fractionBits, by ring⟩
  have hsucc : (m.log2 : ℤ) + 1 + e = (f.fractionBits + 1 : ℕ) + place := by
    push_cast
    omega
  have hminus : (m.log2 : ℤ) + e - f.fractionBits = place := by omega
  rw [hplace, zpow_add₀ two_ne_zero, zpow_natCast] at hsize
  rw [hsucc, zpow_add₀ two_ne_zero, zpow_natCast] at hsize'
  rw [hminus] at hcounted hword
  have hle := hcounted.le_of_le (k := 2 ^ f.fractionBits) (by push_cast; exact hsize)
  have hge := hcounted.ge_of_ge (k := 2 ^ (f.fractionBits + 1)) (by push_cast; exact hsize'.le)
  exact ⟨place, u, hplace, hcounted, hsize, by exact_mod_cast hle, by exact_mod_cast hge, hword⟩

/-- What a number of the normal range is encoded as: the format holds its count, if need be one
place higher, and where the count is even the mantissa that is held is even. -/
theorem exists_held (hbits : 1 ≤ f.fractionBits) (hm : 0 < m)
    (hlow : f.leastExponent + f.fractionBits ≤ m.log2 + e)
    (hhigh : m.log2 + e + 3 ≤ f.leastExponent + f.fractionBits + f.topField) :
    ∃ (place : ℤ) (u r : ℕ) (g : ℤ), Counted (m * 2 ^ e) u place
      ∧ 2 ^ f.fractionBits * 2 ^ place ≤ (m : ℚ) * 2 ^ e ∧ 0 < r ∧ f.Holds r g
      ∧ (r : ℚ) * 2 ^ g = u * 2 ^ place ∧ (Even u → Even r)
      ∧ ∀ negative, f.encode (.finite negative m e) = f.encode (.finite negative r g) := by
  obtain ⟨place, u, hplace, hcounted, hsize, hle, hge, hword⟩ := exists_full_units hm hlow
  rcases hge.lt_or_eq with hlt | hcarry
  · have hholds : f.Holds u place := ⟨hlt, .inl hle, by omega, by omega⟩
    have hpos : 0 < u := lt_of_lt_of_le (by positivity) hle
    refine ⟨place, u, u, place, hcounted, hsize, hpos, hholds, rfl, id, ?_⟩
    refine encode_of_word hm hholds hpos ?_
    rw [hword, Nat.mul_comm, Nat.add_comm]
  · -- the count is carried over all places, into the next one
    have hholds : f.Holds (2 ^ f.fractionBits) (place + 1) :=
      ⟨Nat.pow_lt_pow_right (by norm_num) (Nat.lt_succ_self _), .inl le_rfl, by omega, by omega⟩
    have hnext : (place + 1 - f.leastExponent).toNat = (place - f.leastExponent).toNat + 1 := by
      omega
    refine ⟨place, u, 2 ^ f.fractionBits, place + 1, hcounted, hsize, by positivity, hholds, ?_, ?_,
      ?_⟩
    · rw [hcarry, zpow_add_one₀ two_ne_zero]
      push_cast
      ring
    · intro _
      exact even_two.pow_of_ne_zero (by omega)
    · refine encode_of_word hm hholds (by positivity) ?_
      rw [hword, hcarry, hnext]
      congr 1
      ring

/-! ## The nearest number -/

/-- A word stands for the number of the format that is nearest to the given one. Where a second one
is as near, the word is even. -/
def Nearest (f : WordFormat) (word : ℕ) (x : ℚ) : Prop :=
  ∃ q, (f.decode word).value? = some q ∧ ∀ word' r, (f.decode word').value? = some r →
    |q - x| ≤ |r - x| ∧ (|q - x| = |r - x| → r = q ∨ Even word)

/-- A word that stands for a number is the nearest one. -/
lemma nearest_of_value {word : ℕ} {x : ℚ} (h : (f.decode word).value? = some x) :
    f.Nearest word x := by
  refine ⟨x, h, ?_⟩
  intro word' r _
  rw [sub_self, abs_zero]
  exact ⟨abs_nonneg _, fun heq => .inl (sub_eq_zero.mp (abs_eq_zero.mp heq.symm))⟩

/-- The word of a number that the format holds is even with the mantissa. -/
lemma even_encode {r : ℕ} {g : ℤ} (hbits : 1 ≤ f.fractionBits) (h : f.Holds r g) (hr : 0 < r)
    (heven : Even r) (negative : Bool) : Even (f.encode (.finite negative r g)) := by
  have hunit : Even (2 ^ f.fractionBits) := even_two.pow_of_ne_zero (by omega)
  rw [h.encode_eq hr rfl, signed_eq]
  exact (heven.add (hunit.mul_right _)).add (hunit.mul_right _)

/-- A positive number of the normal range is encoded as the nearest one, compared with the numbers
of either sign. -/
lemma exists_nearest (hbits : 1 ≤ f.fractionBits) (hm : 0 < m)
    (hlow : f.leastExponent + f.fractionBits ≤ m.log2 + e)
    (hhigh : m.log2 + e + 3 ≤ f.leastExponent + f.fractionBits + f.topField) :
    ∃ (r : ℕ) (g : ℤ), 0 < r ∧ f.Holds r g
      ∧ (∀ negative, f.encode (.finite negative m e) = f.encode (.finite negative r g))
      ∧ ∀ (k g' : ℤ), k < 2 ^ (f.fractionBits + 1) →
        |(r : ℚ) * 2 ^ g - m * 2 ^ e| ≤ |(k : ℚ) * 2 ^ g' - m * 2 ^ e|
          ∧ (|(r : ℚ) * 2 ^ g - m * 2 ^ e| = |(k : ℚ) * 2 ^ g' - m * 2 ^ e| →
            (k : ℚ) * 2 ^ g' = r * 2 ^ g ∨ Even r) := by
  obtain ⟨place, u, r, g, hcounted, hfull, hr, hholds, hvalue, heven, hencode⟩ :=
    exists_held hbits hm hlow hhigh
  refine ⟨r, g, hr, hholds, hencode, ?_⟩
  intro k g' hk
  obtain ⟨hle, heq⟩ := hcounted.le_of_lt hfull hk g'
  rw [Int.cast_natCast, ← hvalue] at hle heq
  exact ⟨hle, fun h => (heq h).imp_right fun hu => heven (by exact_mod_cast hu)⟩

/-- A number of the normal range is encoded as the nearest one. -/
theorem nearest_encode (hbits : 1 ≤ f.fractionBits) (hexponent : 2 ≤ f.exponentBits) (hm : 0 < m)
    (hlow : f.leastExponent + f.fractionBits ≤ m.log2 + e)
    (hhigh : m.log2 + e + 3 ≤ f.leastExponent + f.fractionBits + f.topField) (negative : Bool) :
    f.Nearest (f.encode (.finite negative m e)) (Datum.signedMantissa negative m * 2 ^ e) := by
  obtain ⟨r, g, hr, hholds, hencode, hnearest⟩ := exists_nearest hbits hm hlow hhigh
  refine ⟨Datum.signedMantissa negative r * 2 ^ g, ?_, ?_⟩
  · rw [hencode, hholds.decode_encode hr rfl]
    rfl
  · intro word' r' hr'
    cases hd : f.decode word' with
    | notANumber => rw [hd] at hr'; cases hr'
    | infinite t => rw [hd] at hr'; cases hr'
    | finite t n g' =>
      rw [hd] at hr'
      obtain rfl := Option.some.inj hr'
      have hn : (n : ℤ) < 2 ^ (f.fractionBits + 1) := by
        exact_mod_cast (f.holds_decode hexponent hd).lt
      have hsmall := abs_le.mp (Datum.abs_signedMantissa t n).le
      have hword : Even r → Even (f.encode (.finite negative m e)) := by
        rw [hencode]
        exact fun heven => even_encode hbits hholds hr heven negative
      cases negative with
      | false =>
        obtain ⟨hle, heq⟩ := hnearest (Datum.signedMantissa t n) g' (by omega)
        exact ⟨hle, fun h => (heq h).imp_right hword⟩
      | true =>
        -- all three numbers are negated
        obtain ⟨hle, heq⟩ := hnearest (-Datum.signedMantissa t n) g' (by omega)
        have hq : |-(r : ℚ) * 2 ^ g - -m * 2 ^ e| = |(r : ℚ) * 2 ^ g - m * 2 ^ e| := by
          rw [neg_mul, neg_mul, neg_sub_neg, abs_sub_comm]
        have hr' : |(Datum.signedMantissa t n : ℚ) * 2 ^ g' - -m * 2 ^ e|
            = |-(Datum.signedMantissa t n : ℚ) * 2 ^ g' - m * 2 ^ e| := by
          rw [neg_mul, neg_mul, sub_neg_eq_add, ← abs_neg, neg_add']
        push_cast at hle heq
        rw [Datum.cast_signedMantissa_true, Datum.cast_signedMantissa_true, hq, hr']
        refine ⟨hle, fun h => (heq h).imp ?_ hword⟩
        intro hvalue
        linarith

/-- The word of a number of the normal range fits into the fields. -/
lemma encode_lt_of_normal (hbits : 1 ≤ f.fractionBits) (hm : 0 < m)
    (hlow : f.leastExponent + f.fractionBits ≤ m.log2 + e)
    (hhigh : m.log2 + e + 3 ≤ f.leastExponent + f.fractionBits + f.topField) (negative : Bool) :
    f.encode (.finite negative m e) < 2 ^ (f.fractionBits + f.exponentBits + 1) := by
  obtain ⟨r, g, hr, hholds, hencode, -⟩ := exists_nearest hbits hm hlow hhigh
  rw [hencode]
  exact hholds.encode_lt hr rfl negative

end WordFormat

/-! ## Stored samples -/

namespace Sample

/-- The sample stands for the number of single precision that is nearest to the given one. Where a
second one is as near, its bits are even. -/
def Nearest (s : Sample) (x : ℚ) : Prop := WordFormat.single.Nearest s.bits.toNat x

variable {s : Sample} {x q : ℚ}

lemma nearest_of_value (h : s.datum.value? = some x) : s.Nearest x :=
  WordFormat.nearest_of_value h

/-- A number is stored as the nearest one. -/
theorem nearest_ofDatum {m : ℕ} {e : ℤ} (hm : 0 < m) (hlow : -126 ≤ m.log2 + e)
    (hhigh : m.log2 + e ≤ 126) (negative : Bool) :
    (ofDatum (.finite negative m e)).Nearest (Datum.signedMantissa negative m * 2 ^ e) := by
  have hleast : WordFormat.single.leastExponent = -149 := rfl
  have htop : (WordFormat.single.topField : ℤ) = 255 := rfl
  have hbits : (WordFormat.single.fractionBits : ℤ) = 23 := rfl
  have hfraction : 1 ≤ WordFormat.single.fractionBits := by decide
  have hword : WordFormat.single.encode (.finite negative m e) < 2 ^ 32 :=
    WordFormat.encode_lt_of_normal hfraction hm (by omega) (by omega) negative
  have hnat : (ofDatum (.finite negative m e)).bits.toNat
      = WordFormat.single.encode (.finite negative m e) := Nat.mod_eq_of_lt hword
  rw [Nearest, hnat]
  exact WordFormat.nearest_encode hfraction (by decide) hm (by omega) (by omega) negative

/-- The nearest sample to a fraction of full scale is one. -/
lemma Nearest.mem_unit (h : s.Nearest x) (hs : s.datum.value? = some q) (hlow : -1 ≤ x)
    (hhigh : x ≤ 1) : -1 ≤ q ∧ q ≤ 1 := by
  obtain ⟨q', hq', hnearest⟩ := h
  obtain rfl : q' = q := Option.some.inj (hq'.symm.trans hs)
  have hone : (WordFormat.single.decode 0x3f800000).value? = some 1 := by
    have hword : WordFormat.single.decode 0x3f800000 = .finite false (2 ^ 23) (-23) := by decide
    rw [hword, Datum.value?, Datum.signedMantissa]
    norm_num
  have hneg : (WordFormat.single.decode 0xbf800000).value? = some (-1) := by
    have hword : WordFormat.single.decode 0xbf800000 = .finite true (2 ^ 23) (-23) := by decide
    rw [hword, Datum.value?, Datum.signedMantissa]
    norm_num
  have hup := (hnearest _ _ hone).1
  have hdown := (hnearest _ _ hneg).1
  rw [abs_of_nonneg (by linarith : 0 ≤ 1 - x)] at hup
  rw [abs_of_nonpos (by linarith : -1 - x ≤ 0)] at hdown
  have habove := le_abs_self (q' - x)
  have hbelow := neg_abs_le (q' - x)
  constructor <;> linarith

end Sample

end EndlessRemix
