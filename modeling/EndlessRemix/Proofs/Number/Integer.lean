import EndlessRemix.Proofs.Number.Exact

/-!
# Integers among the doubles

Every integer below `2 ^ 53` in size is the value of a double. So counts are exact, a sum or a
difference of doubles that is such an integer is exact, and the whole number at or next to a double
is an integer, of whatever size.
-/

namespace EndlessRemix

open Float.Model (Format UnpackedFloat)
open Float.Model.UnpackedFloat

namespace Double

/-! ## Integers -/

/-- A positive integer below `2 ^ 53`, scaled by a power of two in range, has canonical parts. -/
lemma exists_canonical_nat {k : ℕ} {e : ℤ} (hk : 0 < k) (hlt : k < 2 ^ 53) (hlow : -1022 ≤ e)
    (hhigh : e ≤ 971) (s : Sign) :
    ∃ (m : ℕ) (f : ℤ) (hm : 0 < m),
      Canonical (.finite s m f hm) ∧ (k : ℚ) * 2 ^ e = m * 2 ^ f := by
  have htop : (WordFormat.double.topField : ℤ) = 2047 := rfl
  have hleast : WordFormat.double.leastExponent = -1074 := rfl
  have hbits : (WordFormat.double.fractionBits : ℤ) = 52 := rfl
  obtain ⟨m, f, hm, hholds, hv⟩ :=
    WordFormat.double.exists_holds (e := e) hk hlt (by omega) (by omega)
  exact ⟨m, f, hm, canonical_iff_holds.mpr hholds, hv⟩

lemma value?_packed_zero (s : Sign) : value? (packed (.zero s)) = some 0 := by
  cases s <;> rfl

lemma value?_packed_infinity (s : Sign) : value? (packed (.infinity s)) = none := by
  cases s <;> rfl

lemma value?_packed_notANumber : value? (packed .notANumber) = none := rfl

/-- Rounding leaves a positive integer below `2 ^ 53` as it is. -/
lemma valueOf_round (s : Sign) {m k : ℕ} {e : ℤ} (hpos : 0 < k) (hk : k < 2 ^ 53)
    (hv : (m : ℚ) * 2 ^ e = k) :
    value? (packed (Float.Model.UnpackedFloat.round .binary64 s m e))
      = some ((s.apply k : ℤ) : ℚ) := by
  obtain ⟨n, f, hn, hc, hkn⟩ := exists_canonical_nat hpos hk (e := 0) (by omega) (by omega) s
  rw [zpow_zero, mul_one] at hkn
  have hk' : ((s.apply k : ℤ) : ℚ) = (s.apply n : ℤ) * 2 ^ f := by
    cases s <;> simp only [Sign.apply] <;> push_cast <;> rw [hkn]
    ring
  rw [value?, round_of_canonical hc (hv.trans hkn), unpacked_packed hc, hk']
  rfl

/-- Of a signed number the size is rounded, with its sign; a zero gets the given sign. -/
lemma normalize_cases {m e : ℤ} {q : ℚ} (hq : (m : ℚ) * 2 ^ e = q) (s : Sign) :
    (q = 0 ∧ Float.Model.UnpackedFloat.normalize .binary64 m e s = .zero s)
      ∨ ∃ (t : Sign) (n : ℕ), 0 < n ∧ ((t.apply n : ℤ) : ℚ) * 2 ^ e = q
          ∧ Float.Model.UnpackedFloat.normalize .binary64 m e s
            = Float.Model.UnpackedFloat.round .binary64 t n e := by
  unfold Float.Model.UnpackedFloat.normalize
  rcases lt_trichotomy m 0 with hm | rfl | hm
  · have hsign : Sign.apply .negative ((-m).toNat : ℕ) = m := by
      simp only [Sign.apply]
      omega
    rw [compare_lt_iff_lt.mpr hm]
    exact .inr ⟨.negative, (-m).toNat, by omega, hsign.symm ▸ hq, rfl⟩
  · rw [compare_eq_iff_eq.mpr rfl]
    rw [Int.cast_zero, zero_mul] at hq
    exact .inl ⟨hq.symm, rfl⟩
  · have hsign : Sign.apply .positive (m.toNat : ℕ) = m := by
      simp only [Sign.apply]
      omega
    rw [compare_gt_iff_gt.mpr hm]
    exact .inr ⟨.positive, m.toNat, by omega, hsign.symm ▸ hq, rfl⟩

/-- Rounding the exact result of an operation leaves an integer of less than 53 bits as it is. -/
lemma valueOf_normalize {m e k : ℤ} (hk : k.natAbs < 2 ^ 53) (hv : (m : ℚ) * 2 ^ e = k)
    (s : Sign) :
    value? (packed (Float.Model.UnpackedFloat.normalize .binary64 m e s)) = some (k : ℚ) := by
  rcases normalize_cases hv s with ⟨hzero, hparts⟩ | ⟨t, n, hn, hsize, hparts⟩
  · rw [hparts, hzero]
    exact value?_packed_zero s
  · rw [hparts]
    cases t with
    | positive =>
      have hpos : 0 < k := by exact_mod_cast hsize ▸ positive_value_pos hn e
      obtain ⟨j, rfl⟩ := Int.eq_ofNat_of_zero_le hpos.le
      exact valueOf_round .positive (by omega) hk hsize
    | negative =>
      have hneg : k < 0 := by exact_mod_cast hsize ▸ negative_value_neg hn e
      obtain ⟨j, rfl⟩ : ∃ j : ℕ, k = -j := ⟨(-k).toNat, by omega⟩
      simp only [Sign.apply, Int.cast_neg, neg_mul, neg_inj] at hsize
      exact valueOf_round .negative (by omega) (by omega) hsize

/-- The size of a number with given parts. -/
lemma abs_apply_mul (s : Sign) (m : ℕ) (e : ℤ) :
    |((s.apply m : ℤ) : ℚ) * 2 ^ e| = m * 2 ^ e := by
  have h2 : (0 : ℚ) < 2 ^ e := by positivity
  rw [abs_mul, abs_of_pos h2]
  cases s <;> simp [Sign.apply]

/-- A mantissa that is written at a smaller exponent stands for the same number. -/
lemma apply_shiftLeft (s : Sign) (m : ℕ) {e f : ℤ} (h : f ≤ e) :
    ((s.apply ((m <<< (e - f).toNat : ℕ) : ℤ) : ℤ) : ℚ) * 2 ^ f = (s.apply m : ℤ) * 2 ^ e := by
  have he : (2 : ℚ) ^ e = 2 ^ (e - f).toNat * 2 ^ f := by
    rw [← zpow_natCast, ← zpow_add₀ (by norm_num)]
    congr 1
    omega
  rw [he, ← mul_assoc, Nat.shiftLeft_eq]
  congr 1
  cases s <;> simp only [Sign.apply] <;> push_cast <;> ring

/-- A sum of finite parts is exact, or it is what the exact sum is rounded to. -/
lemma add_cases {u v : UnpackedFloat} {a b : ℚ} (hu : Canonical u) (hv : Canonical v)
    (ha : valueOf u = some a) (hb : valueOf v = some b) :
    value? (packed (u.add .binary64 v)) = some (a + b)
      ∨ ∃ m e : ℤ, (m : ℚ) * 2 ^ e = a + b
          ∧ u.add .binary64 v = Float.Model.UnpackedFloat.normalize .binary64 m e .positive := by
  cases u with
  | notANumber => cases ha
  | infinity s => cases ha
  | zero s =>
    left
    obtain rfl : 0 = a := Option.some.inj ha
    cases v with
    | notANumber => cases hb
    | infinity t => cases hb
    | zero t =>
      obtain rfl : 0 = b := Option.some.inj hb
      rw [add_zero]
      cases s <;> cases t <;> exact value?_packed_zero _
    | finite t n f hn =>
      show valueOf (unpacked (packed (.finite t n f hn))) = _
      rw [unpacked_packed hv, hb, zero_add]
  | finite s m e hm => cases v with
    | notANumber => cases hb
    | infinity t => cases hb
    | zero t =>
      left
      obtain rfl : 0 = b := Option.some.inj hb
      show valueOf (unpacked (packed (.finite s m e hm))) = _
      rw [unpacked_packed hu, ha, add_zero]
    | finite t n f hn =>
      refine .inr ⟨_, Min.min e f, ?_, rfl⟩
      rw [Int.cast_add, add_mul, apply_shiftLeft s m (min_le_left e f),
        apply_shiftLeft t n (min_le_right e f), ← Option.some.inj ha, ← Option.some.inj hb]

/-- Parts whose sum is an integer of less than 53 bits are added exactly. -/
theorem valueOf_add {u v : UnpackedFloat} {a b : ℚ} {k : ℤ} (hu : Canonical u) (hv : Canonical v)
    (ha : valueOf u = some a) (hb : valueOf v = some b) (hk : k.natAbs < 2 ^ 53) (h : a + b = k) :
    value? (packed (u.add .binary64 v)) = some (k : ℚ) := by
  rcases add_cases hu hv ha hb with hexact | ⟨m, e, hsum, hparts⟩
  · rw [hexact, h]
  · rw [hparts]
    exact valueOf_normalize hk (hsum.trans h) _

lemma apply_neg (s : Sign) (m : ℤ) : (-s).apply m = -s.apply m := by
  cases s
  · exact (neg_neg m).symm
  · rfl

lemma canonical_neg {u : UnpackedFloat} (h : Canonical u) : Canonical u.neg := by
  cases u <;> exact h

lemma valueOf_neg {u : UnpackedFloat} {a : ℚ} (h : valueOf u = some a) :
    valueOf u.neg = some (-a) := by
  cases u with
  | notANumber => cases h
  | infinity s => cases h
  | zero s =>
    obtain rfl : 0 = a := Option.some.inj h
    rw [neg_zero]
    rfl
  | finite s m e hm =>
    rw [← Option.some.inj h, ← neg_mul, ← Int.cast_neg, ← apply_neg]
    rfl

/-- A difference is the sum with the negated parts. -/
theorem sub_eq_add_neg_parts (f : Format) (u v : UnpackedFloat) : u.sub f v = u.add f v.neg := by
  cases u with
  | notANumber => cases v <;> rfl
  | infinity s => cases v <;> rfl
  | zero s => cases v <;> rfl
  | finite s m e hm => cases v with
    | finite t n k hn =>
      simp only [sub, add, Float.Model.UnpackedFloat.neg, apply_neg, sub_eq_add_neg]
    | _ => rfl

section

variable {x y : Float} {a b : ℚ} {k : ℕ}

/-- A sum that is an integer of less than 53 bits is exact. -/
theorem value?_add_int {k : ℤ} (hx : value? x = some a) (hy : value? y = some b)
    (hk : k.natAbs < 2 ^ 53) (h : a + b = k) : value? (x + y) = some (k : ℚ) :=
  valueOf_add (canonical_unpacked x) (canonical_unpacked y) hx hy hk h

/-- A sum that is an integer below `2 ^ 53` is exact. -/
theorem value?_add (hx : value? x = some a) (hy : value? y = some b) (hk : k < 2 ^ 53)
    (h : a + b = k) : value? (x + y) = some (k : ℚ) :=
  value?_add_int (k := (k : ℤ)) hx hy hk h

/-- A difference that is an integer below `2 ^ 53` is exact. -/
theorem value?_sub (hx : value? x = some a) (hy : value? y = some b) (hk : k < 2 ^ 53)
    (h : a - b = k) : value? (x - y) = some (k : ℚ) := by
  show value? (packed ((unpacked x).sub .binary64 (unpacked y))) = _
  rw [sub_eq_add_neg] at h
  rw [sub_eq_add_neg_parts]
  exact valueOf_add (k := (k : ℤ)) (canonical_unpacked x) (canonical_neg (canonical_unpacked y)) hx
    (valueOf_neg hy) hk h

end

/-- Nothing changes by a factor of one. -/
lemma mul_ofBits_one (x : Float) : x * .ofBits 0x3FF0000000000000 = x := by
  have h1 : unpacked (.ofBits 0x3FF0000000000000)
      = .finite .positive (2 ^ 52) (-52) (by norm_num) := rfl
  have hc := canonical_unpacked x
  have hx := packed_unpacked x
  have hu : (unpacked x).mul .binary64 (unpacked (.ofBits 0x3FF0000000000000)) = unpacked x := by
    rw [h1]
    generalize unpacked x = u at *
    cases u with
    | notANumber => rfl
    | infinity s => cases s <;> rfl
    | zero s => cases s <;> rfl
    | finite s m e hm =>
      have hs : s * .positive = s := by cases s <;> rfl
      show roundWithAccuracy .binary64 (s * .positive) (m * 2 ^ 52) (e + -52) .exact = _
      rw [hs]
      exact roundWithAccuracy_of_canonical hc 52
  show packed ((unpacked x).mul .binary64 (unpacked (.ofBits 0x3FF0000000000000))) = x
  rw [hu, hx]

/-- A word below `2 ^ 53` is a double exactly. -/
lemma value?_toFloat {n : ℕ} (hn : n < 2 ^ 53) : value? n.toUInt64.toFloat = some (n : ℚ) := by
  have hmod : n.toUInt64.toNat = n := Nat.mod_eq_of_lt (by omega)
  show value? (packed
    (Float.Model.UnpackedFloat.normalize .binary64 (n.toUInt64.toNat : ℕ) 0 .positive)) = _
  rw [hmod]
  exact valueOf_normalize (k := (n : ℤ)) hn (by simp) _

/-- A count below `2 ^ 53` is a double exactly. -/
theorem value?_ofNat {n : ℕ} (hn : n < 2 ^ 53) : value? (Scalar.ofNat n) = some (n : ℚ) := by
  have hfast : (Scalar.ofNat n : Float) = n.toUInt64.toFloat * .ofBits 0x3FF0000000000000 := by
    show Float.ofScientific n false 0 = _
    rw [Float.ofScientific, dif_pos ⟨hn, by norm_num⟩]
    rfl
  rw [hfast, mul_ofBits_one]
  exact value?_toFloat hn

lemma value?_zero : value? 0 = some 0 := rfl

lemma value?_one : value? 1 = some 1 := by
  have h : value? 1 = some ((1 : ℕ) : ℚ) := value?_ofNat (by norm_num)
  rw [h, Nat.cast_one]

/-! ## Products -/

/-- Positive parts are packed as a double at or above zero. -/
lemma packed_positive (m : ℕ) (e : ℤ) (hm : 0 < m) :
    (∃ q, value? (packed (.finite .positive m e hm)) = some q ∧ 0 ≤ q)
      ∨ unpacked (packed (.finite .positive m e hm)) = .infinity .positive := by
  have hparts : ∀ (E : BitVec 11) (M : BitVec 52), E ≠ -1#11 →
      ∃ q, valueOf (unpack .binary64 (packComponents .binary64 .positive E M)) = some q
        ∧ 0 ≤ q := by
    intro E M hE
    rw [unpack_packComponents, if_neg hE]
    split_ifs
    · exact ⟨0, rfl, le_rfl⟩
    · refine ⟨_, rfl, ?_⟩
      simp only [Sign.apply]
      positivity
    · refine ⟨_, rfl, ?_⟩
      simp only [Sign.apply]
      positivity
  show (∃ q, valueOf (unpack .binary64 (pack .binary64 (.finite .positive m e hm))) = some q ∧ _)
    ∨ unpack .binary64 (pack .binary64 (.finite .positive m e hm)) = _
  rw [pack_finite]
  split_ifs with htop hlog
  · exact .inr rfl
  · left
    apply hparts
    rw [ne_eq, ← BitVec.toNat_inj, toNat_neg_one, BitVec.toNat_ofNat]
    omega
  · exact .inl (hparts _ _ (by decide))

section

variable {x y : Float} {a b : ℚ}

/-- The sign of a number above zero. -/
lemma eq_positive_of_nonneg {s : Sign} {m : ℕ} {e : ℤ} {hm : 0 < m} {q : ℚ}
    (hq : valueOf (.finite s m e hm) = some q) (h0 : 0 ≤ q) : s = .positive := by
  cases s with
  | positive => rfl
  | negative =>
    rw [← Option.some.inj hq] at h0
    exact absurd h0 (negative_value_neg hm e).not_ge

/-- A product of finite parts is zero, or both have a mantissa. -/
lemma mul_cases {u v : UnpackedFloat} (ha : valueOf u = some a) (hb : valueOf v = some b) :
    a * b = 0 ∧ value? (packed (u.mul .binary64 v)) = some 0
      ∨ ∃ (s t : Sign) (m n : ℕ) (e f : ℤ) (hm : 0 < m) (hn : 0 < n),
          u = .finite s m e hm ∧ v = .finite t n f hn := by
  cases u with
  | notANumber => cases ha
  | infinity s => cases ha
  | zero s =>
    left
    obtain rfl : 0 = a := Option.some.inj ha
    cases v with
    | notANumber => cases hb
    | infinity t => cases hb
    | zero t => exact ⟨zero_mul b, value?_packed_zero _⟩
    | finite t n f hn => exact ⟨zero_mul b, value?_packed_zero _⟩
  | finite s m e hm => cases v with
    | notANumber => cases hb
    | infinity t => cases hb
    | zero t =>
      obtain rfl : 0 = b := Option.some.inj hb
      exact .inl ⟨mul_zero a, value?_packed_zero _⟩
    | finite t n f hn => exact .inr ⟨s, t, m, n, e, f, hm, hn, rfl, rfl⟩

/-- What is rounded from positive parts is at or above zero, if it is not too large. -/
lemma nonneg_roundWithAccuracy (m : ℕ) (e : ℤ) (acc : Accuracy) :
    (∃ q, value? (packed (roundWithAccuracy .binary64 .positive m e acc)) = some q ∧ 0 ≤ q)
      ∨ unpacked (packed (roundWithAccuracy .binary64 .positive m e acc)) = .infinity .positive := by
  unfold roundWithAccuracy
  dsimp only
  split_ifs
  · exact .inl ⟨0, value?_packed_zero _, le_rfl⟩
  · exact packed_positive _ _ _

/-- A product of doubles at or above zero is at or above zero, if it is not too large. -/
theorem mul_nonneg_cases (hx : value? x = some a) (ha : 0 ≤ a) (hy : value? y = some b)
    (hb : 0 ≤ b) :
    (∃ q, value? (x * y) = some q ∧ 0 ≤ q) ∨ unpacked (x * y) = .infinity .positive := by
  show (∃ q, value? (packed ((unpacked x).mul .binary64 (unpacked y))) = some q ∧ _)
    ∨ unpacked (packed ((unpacked x).mul .binary64 (unpacked y))) = _
  unfold value? at hx hy
  generalize unpacked x = u, unpacked y = v at *
  rcases mul_cases hx hy with ⟨-, hzero⟩ | ⟨s, t, m, n, e, f, hm, hn, rfl, rfl⟩
  · exact .inl ⟨0, hzero, le_rfl⟩
  · obtain rfl := eq_positive_of_nonneg hx ha
    obtain rfl := eq_positive_of_nonneg hy hb
    exact nonneg_roundWithAccuracy _ _ _

/-- A product with a double that is not finite is not finite. -/
theorem value?_mul_eq_none (hx : value? x = none) : value? (x * y) = none := by
  show value? (packed ((unpacked x).mul .binary64 (unpacked y))) = none
  unfold value? at hx
  generalize unpacked x = u, unpacked y = v at *
  cases u with
  | notANumber => cases v <;> exact value?_packed_notANumber
  | infinity s => cases v with
    | notANumber => exact value?_packed_notANumber
    | infinity t => exact value?_packed_infinity _
    | zero t => exact value?_packed_notANumber
    | finite t n f hn => exact value?_packed_infinity _
  | zero s => cases hx
  | finite s m e hm => cases hx

end

/-! ## Whole numbers -/

/-- An integer below `2 ^ 53` in size is the value of some double. -/
lemma exists_value_int {k : ℤ} (hk : k.natAbs < 2 ^ 53) : ∃ x, value? x = some (k : ℚ) := by
  rcases Int.natAbs_eq k with h | h
  · exact ⟨_, by rw [h]; exact value?_ofNat hk⟩
  · rcases Nat.eq_zero_or_pos k.natAbs with h0 | hpos
    · exact ⟨packed (.zero .positive), by rw [h, h0]; rfl⟩
    · obtain ⟨m, e, hm, hc, hv⟩ :=
        exists_canonical_nat hpos hk (e := 0) (by omega) (by omega) .negative
      refine ⟨packed (.finite .negative m e hm), ?_⟩
      rw [value?, unpacked_packed hc]
      show some (((-(m : ℤ) : ℤ) : ℚ) * 2 ^ e) = _
      rw [zpow_zero, mul_one] at hv
      rw [h, Int.cast_neg, Int.cast_neg, neg_mul, Int.cast_natCast, Int.cast_natCast, hv]

/-- Parts whose last place is that of the ones, or above it, stand for an integer. -/
lemma apply_mul_zpow (s : Sign) (m n : ℕ) :
    ((s.apply m : ℤ) : ℚ) * 2 ^ (n : ℤ) = ((s.apply m * (2 ^ n : ℕ) : ℤ) : ℚ) := by
  push_cast
  rfl

/-- Parts with a place after the point stand for a number below `2 ^ 52` in size. -/
lemma abs_apply_mul_lt (s : Sign) {m : ℕ} {e : ℤ} (hm : m < 2 ^ 53) (he : e < 0) :
    |((s.apply m : ℤ) : ℚ) * 2 ^ e| < 2 ^ 52 := by
  have h2 : (2 : ℚ) ^ e ≤ 1 / 2 := by
    calc (2 : ℚ) ^ e ≤ 2 ^ (-1 : ℤ) := zpow_le_zpow_right₀ (by norm_num) (by omega)
      _ = 1 / 2 := by norm_num
  have hm' : (m : ℚ) < 2 ^ 53 := by exact_mod_cast hm
  rw [abs_apply_mul]
  calc (m : ℚ) * 2 ^ e ≤ m * (1 / 2) := mul_le_mul_of_nonneg_left h2 (Nat.cast_nonneg m)
    _ < 2 ^ 52 := by linarith

/-- Such a number is next to an integer below `2 ^ 53` in size. -/
lemma natAbs_floor_lt {q c : ℚ} (hq : |q| < 2 ^ 52) (h0 : 0 ≤ c) (h1 : c < 1) :
    (⌊q + c⌋).natAbs < 2 ^ 53 := by
  obtain ⟨hlow, hhigh⟩ := abs_lt.mp hq
  have hbelow : -2 ^ 52 ≤ ⌊q + c⌋ := Int.le_floor.mpr (by push_cast; linarith)
  have habove : ⌊q + c⌋ < 2 ^ 53 := Int.floor_lt.mpr (by push_cast; linarith)
  omega

/-- Next to a finite double there is one with the value of the whole number. -/
lemma exists_value_floor {x : Float} {a c : ℚ} (h : value? x = some a) (h0 : 0 ≤ c) (h1 : c < 1) :
    ∃ y, value? y = some ((⌊a + c⌋ : ℤ) : ℚ) := by
  have hfloor : ⌊c⌋ = 0 := Int.floor_eq_zero_iff.mpr ⟨h0, h1⟩
  have hc := canonical_unpacked x
  have hx := h
  unfold value? at h
  generalize unpacked x = u at *
  cases u with
  | notANumber => cases h
  | infinity s => cases h
  | zero s =>
    obtain rfl : 0 = a := Option.some.inj h
    exact ⟨x, by rw [zero_add, hfloor, hx, Int.cast_zero]⟩
  | finite s m e hm =>
    obtain rfl := Option.some.inj h
    rcases le_or_gt 0 e with he | he
    · -- the double is a whole number itself
      obtain ⟨n, rfl⟩ := Int.eq_ofNat_of_zero_le he
      have hz := apply_mul_zpow s m n
      exact ⟨x, by rw [hz, Int.floor_intCast_add, hfloor, add_zero, hx, hz]⟩
    · exact exists_value_int (natAbs_floor_lt (abs_apply_mul_lt s hc.1 he) h0 h1)

lemma fdiv_eq_floor (m : ℤ) {d : ℕ} (hd : 0 < d) : m.fdiv d = ⌊(m : ℚ) / d⌋ := by
  rw [Int.fdiv_eq_ediv_of_nonneg _ (by positivity), Rat.floor_intCast_div_natCast]

/-- The floor of a finite number. -/
lemma floor_finite (s : Sign) (m : ℕ) (e : ℤ) :
    (Datum.finite (s == .negative) m e).floor = .int ⌊((s.apply m : ℤ) : ℚ) * 2 ^ e⌋ := by
  simp only [Datum.floor, Nat.pow_eq, signedMantissa_eq]
  split_ifs with he
  · obtain ⟨n, rfl⟩ := Int.eq_ofNat_of_zero_le he
    rw [apply_mul_zpow, Int.floor_intCast, Int.toNat_natCast]
  · obtain ⟨n, rfl⟩ : ∃ n : ℕ, e = -n := ⟨(-e).toNat, by omega⟩
    rw [neg_neg, Int.toNat_natCast, fdiv_eq_floor _ (by positivity), zpow_neg, zpow_natCast,
      Nat.cast_pow, Nat.cast_ofNat, div_eq_mul_inv]

/-- The whole number nearest to a finite number. -/
lemma round_finite (s : Sign) (m : ℕ) (e : ℤ) :
    (Datum.finite (s == .negative) m e).round
      = .int ⌊((s.apply m : ℤ) : ℚ) * 2 ^ e + 1 / 2⌋ := by
  simp only [Datum.round, Nat.pow_eq, signedMantissa_eq]
  split_ifs with he
  · obtain ⟨n, rfl⟩ := Int.eq_ofNat_of_zero_le he
    have hhalf : ⌊(1 / 2 : ℚ)⌋ = 0 := by norm_num
    rw [apply_mul_zpow, Int.floor_intCast_add, hhalf, add_zero, Int.toNat_natCast]
  · obtain ⟨n, rfl⟩ : ∃ n : ℕ, e = -n := ⟨(-e).toNat, by omega⟩
    have hunit : (2 * ((2 ^ n : ℕ) : ℤ)) = ((2 * 2 ^ n : ℕ) : ℤ) := by
      push_cast
      rfl
    rw [neg_neg, Int.toNat_natCast, hunit, fdiv_eq_floor _ (by positivity), zpow_neg, zpow_natCast]
    congr 2
    have h2 : (2 : ℚ) ^ n ≠ 0 := by positivity
    push_cast
    field_simp

section

variable {x : Float} {a : ℚ}

/-- The datum of a finite double is finite. -/
lemma datum_of_value (h : value? x = some a) :
    ∃ (s : Sign) (m : ℕ) (e : ℤ), datum x = .finite (s == .negative) m e
      ∧ a = ((s.apply m : ℤ) : ℚ) * 2 ^ e := by
  rw [datum_eq]
  unfold value? at h
  cases hu : unpacked x with
  | notANumber => rw [hu] at h; cases h
  | infinity s => rw [hu] at h; cases h
  | zero s =>
    rw [hu] at h
    refine ⟨s, 0, -1074, rfl, ?_⟩
    rw [← Option.some.inj h]
    cases s <;> simp [Sign.apply]
  | finite s m e hm =>
    rw [hu] at h
    exact ⟨s, m, e, rfl, (Option.some.inj h).symm⟩

/-- The floor of a finite double is exact. -/
theorem value?_floor (h : value? x = some a) :
    value? (Scalar.floor x) = some ((⌊a⌋ : ℤ) : ℚ) := by
  obtain ⟨s, m, e, hd, rfl⟩ := datum_of_value h
  obtain ⟨y, hy⟩ := exists_value_floor h le_rfl zero_lt_one
  rw [add_zero] at hy
  show value? (ofDatum (datum x).floor.datum) = _
  rw [hd, floor_finite]
  exact value?_ofDatum_int hy

/-- The whole number nearest to a finite double is exact. -/
theorem value?_round (h : value? x = some a) :
    value? (Scalar.round x) = some ((⌊a + 1 / 2⌋ : ℤ) : ℚ) := by
  obtain ⟨s, m, e, hd, rfl⟩ := datum_of_value h
  obtain ⟨y, hy⟩ := exists_value_floor h (by norm_num) (c := 1 / 2) (by norm_num)
  show value? (ofDatum (datum x).round.datum) = _
  rw [hd, round_finite]
  exact value?_ofDatum_int hy

/-- What is not finite stays so when it is rounded. -/
lemma value?_round_eq_none (h : value? x = none) : value? (Scalar.round x) = none := by
  show value? (ofDatum (datum x).round.datum) = none
  rw [datum_eq]
  unfold value? at h
  generalize unpacked x = u at *
  cases u with
  | notANumber => rfl
  | infinity s => cases s <;> rfl
  | zero s => cases h
  | finite s m e hm => cases h

/-- A rounded double that is finite is an integer. -/
theorem integer_of_round {q : ℚ} (h : value? (Scalar.round x) = some q) : ∃ k : ℤ, q = k := by
  cases hx : value? x with
  | some a =>
    rw [value?_round hx] at h
    exact ⟨_, (Option.some.inj h).symm⟩
  | none =>
    rw [value?_round_eq_none hx] at h
    cases h

/-- The floor of the largest infinity is the largest infinity. -/
lemma unpacked_floor_infinity (h : unpacked x = .infinity .positive) :
    unpacked (Scalar.floor x) = .infinity .positive := by
  show unpacked (ofDatum (datum x).floor.datum) = _
  rw [datum_eq, h]
  rfl

/-- The negated double has the negated value. -/
lemma value?_neg (h : value? x = some a) : value? (-x) = some (-a) := by
  show value? (packed (unpacked x).neg) = _
  rw [value?, unpacked_packed (canonical_neg (canonical_unpacked x))]
  exact valueOf_neg h

/-- The integer next to a finite number on the side of zero. -/
lemma truncate_finite (s : Sign) (m : ℕ) (e : ℤ) :
    (Datum.finite (s == .negative) m e).truncate = .int (s.apply ⌊(m : ℚ) * 2 ^ e⌋) := by
  simp only [Datum.truncate, Nat.pow_eq, signedMantissa_eq]
  split_ifs with he
  · obtain ⟨n, rfl⟩ := Int.eq_ofNat_of_zero_le he
    have hz : (m : ℚ) * 2 ^ (n : ℤ) = ((m * 2 ^ n : ℤ) : ℚ) := by
      push_cast
      rfl
    rw [hz, Int.floor_intCast, Int.toNat_natCast]
    cases s <;> simp [Sign.apply]
  · obtain ⟨n, rfl⟩ : ∃ n : ℕ, e = -n := ⟨(-e).toNat, by omega⟩
    have hdiv : ⌊(m : ℚ) * 2 ^ (-(n : ℤ))⌋ = (m : ℤ) / ((2 ^ n : ℕ) : ℤ) := by
      rw [zpow_neg, zpow_natCast, ← div_eq_mul_inv, ← Rat.floor_intCast_div_natCast]
      push_cast
      rfl
    rw [neg_neg, Int.toNat_natCast, hdiv]
    cases s <;> simp only [Sign.apply]
    · rw [Int.neg_tdiv, Int.tdiv_eq_ediv_of_nonneg (Int.natCast_nonneg m)]
    · rw [Int.tdiv_eq_ediv_of_nonneg (Int.natCast_nonneg m)]

/-- The integer next to a number on the side of zero. -/
def towardZero (a : ℚ) : ℤ := if 0 ≤ a then ⌊a⌋ else ⌈a⌉

/-- The integer that a finite double is truncated to. -/
lemma whole_eq_towardZero (h : value? x = some a) : Scalar.whole x = .int (towardZero a) := by
  obtain ⟨s, m, e, hd, rfl⟩ := datum_of_value h
  show (datum x).truncate = _
  rw [hd, truncate_finite]
  have hsize : (0 : ℚ) ≤ m * 2 ^ e := by positivity
  cases s with
  | positive => simp [Sign.apply, towardZero, hsize]
  | negative =>
    -- a number with the sign is rounded up, unless it is zero
    rcases hsize.eq_or_lt with hzero | hpos
    · simp [Sign.apply, towardZero, ← hzero]
    · simp [Sign.apply, towardZero, not_le.mpr hpos, Int.ceil_neg]

/-- The whole part of a finite double is exact. -/
theorem value?_truncate (h : value? x = some a) :
    value? (Scalar.truncate x) = some (towardZero a : ℚ) := by
  have hy : ∃ y, value? y = some (towardZero a : ℚ) := by
    unfold towardZero
    split_ifs with ha
    · exact ⟨_, value?_floor h⟩
    · refine ⟨_, (value?_neg (value?_floor (value?_neg h))).trans ?_⟩
      rw [Int.floor_neg, Int.cast_neg, neg_neg]
  obtain ⟨y, hy⟩ := hy
  rw [Scalar.truncate, whole_eq_towardZero h]
  exact value?_ofDatum_int hy

/-- A double that is the nearest one to an integer and has this integer as its value. -/
def Integral (x : Float) : Prop := ∃ k : ℤ, x = Scalar.ofWhole (.int k) ∧ value? x = some (k : ℚ)

/-- Truncation leaves such a double as it is. -/
lemma Integral.truncate_eq (h : Integral x) : Scalar.truncate x = x := by
  obtain ⟨k, hx, hvalue⟩ := h
  rw [Scalar.truncate, whole_of_value hvalue, ← hx]

lemma Integral.isFinite (h : Integral x) : Scalar.isFinite x = true := by
  obtain ⟨k, -, hvalue⟩ := h
  exact (isFinite_iff x).mpr ⟨k, hvalue⟩

/-- The floor of a finite double is such a double. -/
theorem integral_floor (h : value? x = some a) : Integral (Scalar.floor x) := by
  refine ⟨⌊a⌋, ?_, value?_floor h⟩
  obtain ⟨s, m, e, hd, rfl⟩ := datum_of_value h
  show ofDatum (datum x).floor.datum = _
  rw [hd, floor_finite]
  rfl

/-- The whole part of a finite double is such a double. -/
theorem integral_truncate (h : value? x = some a) : Integral (Scalar.truncate x) :=
  ⟨towardZero a, by rw [Scalar.truncate, whole_eq_towardZero h], value?_truncate h⟩

end

end Double

end EndlessRemix
