import EndlessRemix.Audio.Sample
import EndlessRemix.Proofs.Number.Integer

/-!
# The number of a sample

A sample stands for a number of single precision. Double precision holds it exactly, so samples are
compared and clamped like the numbers that they stand for. Storing is exact for a number with at
most 24 places that single precision can hold.
-/

namespace EndlessRemix

open Float.Model.UnpackedFloat (Sign)

/-- The number that a finite datum stands for. -/
def Datum.value? : Datum → Option ℚ
  | .finite negative m e => some (signedMantissa negative m * 2 ^ e)
  | _ => none

lemma Datum.value?_zero (negative : Bool) (e : ℤ) : (finite negative 0 e).value? = some 0 := by
  cases negative <;> simp [value?, signedMantissa]

/-- Two mantissas that stand for one size stand for one number with either sign. -/
lemma Datum.value?_congr {m n : ℕ} {e f : ℤ} (h : (m : ℚ) * 2 ^ e = n * 2 ^ f) (negative : Bool) :
    (finite negative m e).value? = (finite negative n f).value? := by
  cases negative <;> simp [value?, signedMantissa, h]

/-- An integer is its size with its sign. -/
lemma Datum.signedMantissa_natAbs (k : ℤ) : signedMantissa (k < 0) k.natAbs = k := by
  rw [signedMantissa]
  simp only [decide_eq_true_eq]
  split_ifs <;> omega

/-- A number is rounded to the nearest integer, and halfway between two to the upper one. -/
lemma Datum.round_of_value {d : Datum} {q : ℚ} (h : d.value? = some q) :
    d.round = .int ⌊q + 1 / 2⌋ := by
  cases d with
  | notANumber => cases h
  | infinite negative => cases h
  | finite negative m e =>
    obtain rfl := Option.some.inj h
    obtain ⟨s, rfl⟩ := Double.exists_sign negative
    rw [Double.round_finite, Double.signedMantissa_eq]

/-! ## Reading a sample -/

namespace Double

lemma value?_ofDatum_zero (negative : Bool) (e : ℤ) :
    value? (ofDatum (.finite negative 0 e)) = some 0 := by
  rw [ofDatum, WordFormat.encode_zero]
  cases negative <;> rfl

/-- Double precision holds the numbers that single precision holds. -/
theorem value?_ofDatum_of_holds {m : ℕ} {e : ℤ} (h : WordFormat.single.Holds m e)
    (negative : Bool) :
    value? (ofDatum (.finite negative m e)) = (Datum.finite negative m e).value? := by
  rcases Nat.eq_zero_or_pos m with rfl | hm
  · rw [value?_ofDatum_zero, Datum.value?_zero]
  · have hleast : WordFormat.single.leastExponent = -149 := rfl
    have htop : (WordFormat.single.topField : ℤ) = 255 := rfl
    obtain ⟨hlt, -, hlow, hhigh⟩ := h
    have hlt' : m < 2 ^ 53 := hlt.trans (by decide)
    obtain ⟨s, rfl⟩ := exists_sign negative
    obtain ⟨n, f, hn, hc, hv⟩ := exists_canonical_nat (e := e) hm hlt' (by omega) (by omega) s
    have hx : value? (packed (.finite s n f hn)) = some (((s.apply m : ℤ) : ℚ) * 2 ^ e) := by
      rw [value?, unpacked_packed hc, ← signedMantissa_eq s m]
      show some (((s.apply n : ℤ) : ℚ) * 2 ^ f) = _
      rw [← signedMantissa_eq]
      exact (Datum.value?_congr hv _).symm
    rw [ofDatum_of_value hm hx, hx, Datum.value?, signedMantissa_eq]

end Double

namespace Sample

/-- Double precision holds the number of a sample exactly. -/
theorem value?_toFloat (s : Sample) : Double.value? s.toFloat = s.datum.value? := by
  rw [toFloat]
  cases hd : s.datum with
  | notANumber => rfl
  | infinite negative => cases negative <;> rfl
  | finite negative m e =>
    exact Double.value?_ofDatum_of_holds (WordFormat.single.holds_decode (by decide) hd) negative

/-- A sample is read as an infinity if it is one. -/
lemma datum_of_infinity {s : Sample} {g : Sign}
    (h : Double.unpacked s.toFloat = .infinity g) : s.datum = .infinite (g == .negative) := by
  have hvalue := s.value?_toFloat
  rw [Double.value?, h] at hvalue
  rw [toFloat] at h
  cases hd : s.datum with
  | notANumber =>
    rw [hd] at h
    cases h
  | infinite negative =>
    rw [hd] at h
    cases negative <;> cases g <;> first | rfl | cases h
  | finite negative m e =>
    rw [hd] at hvalue
    cases hvalue

/-- Of two samples in order both are numbers. Unless one of them is the infinity on its side, both
are finite and stand for ordered numbers. -/
theorem le_cases {s t : Sample} (h : s.toFloat ≤ t.toFloat) :
    (s.datum = .infinite true ∧ t.datum ≠ .notANumber)
      ∨ (t.datum = .infinite false ∧ s.datum ≠ .notANumber)
      ∨ ∃ a b, s.datum.value? = some a ∧ t.datum.value? = some b ∧ a ≤ b := by
  have hnumber : ∀ s : Sample, Double.unpacked s.toFloat ≠ .notANumber → s.datum ≠ .notANumber := by
    intro s hs hd
    rw [toFloat, hd] at hs
    exact hs rfl
  rcases Double.le_cases h with ⟨hs, ht⟩ | ⟨ht, hs⟩ | ⟨a, b, ha, hb, hab⟩
  · exact .inl ⟨datum_of_infinity hs, hnumber t ht⟩
  · exact .inr (.inl ⟨datum_of_infinity ht, hnumber s hs⟩)
  · rw [value?_toFloat] at ha hb
    exact .inr (.inr ⟨a, b, ha, hb, hab⟩)

/-! ## Storing a sample -/

/-- The parts of a stored number. -/
lemma datum_ofDatum {k : ℕ} {e : ℤ} (hk : 0 < k) (hlt : k < 2 ^ 24) (hlow : -126 ≤ e)
    (hhigh : e ≤ 104) (negative : Bool) :
    ∃ m f, 0 < m ∧ (ofDatum (.finite negative k e)).datum = .finite negative m f
      ∧ (k : ℚ) * 2 ^ e = m * 2 ^ f := by
  have hleast : WordFormat.single.leastExponent = -149 := rfl
  have htop : (WordFormat.single.topField : ℤ) = 255 := rfl
  have hbits : (WordFormat.single.fractionBits : ℤ) = 23 := rfl
  obtain ⟨m, f, hm, hholds, hv⟩ :=
    WordFormat.single.exists_holds (e := e) hk hlt (by omega) (by omega)
  have hword : WordFormat.single.encode (.finite negative k e) < 2 ^ 32 :=
    hholds.encode_lt hm hv negative
  have hbits : (WordFormat.single.encode (.finite negative k e)).toUInt32.toNat
      = WordFormat.single.encode (.finite negative k e) := Nat.mod_eq_of_lt hword
  refine ⟨m, f, hm, ?_, hv⟩
  rw [ofDatum, datum, hbits, hholds.decode_encode hm hv]

/-- A number with at most 24 places that single precision can hold is stored exactly. -/
theorem value?_ofDatum {k : ℕ} {e : ℤ} (hlt : k < 2 ^ 24) (hlow : -126 ≤ e) (hhigh : e ≤ 104)
    (negative : Bool) :
    (ofDatum (.finite negative k e)).datum.value? = (Datum.finite negative k e).value? := by
  rcases Nat.eq_zero_or_pos k with rfl | hk
  · rw [ofDatum, WordFormat.encode_zero, Datum.value?_zero]
    cases negative
    · exact Datum.value?_zero false (-149)
    · exact Datum.value?_zero true (-149)
  · obtain ⟨m, f, -, hdatum, hv⟩ := datum_ofDatum hk hlt hlow hhigh negative
    rw [hdatum, Datum.value?_congr hv]

/-- Such a number is stored as the same sample however it is written. -/
theorem ofDatum_congr {k n : ℕ} {e f : ℤ} (hlt : k < 2 ^ 24) (hlow : -126 ≤ e) (hhigh : e ≤ 104)
    (h : (n : ℚ) * 2 ^ f = k * 2 ^ e) (negative : Bool) :
    ofDatum (.finite negative n f) = ofDatum (.finite negative k e) := by
  have hleast : WordFormat.single.leastExponent = -149 := rfl
  have htop : (WordFormat.single.topField : ℤ) = 255 := rfl
  have hbits : (WordFormat.single.fractionBits : ℤ) = 23 := rfl
  rcases Nat.eq_zero_or_pos k with rfl | hk
  · have hn : n = 0 := by
      have h2 : (2 : ℚ) ^ f ≠ 0 := by positivity
      rw [Nat.cast_zero, zero_mul, mul_eq_zero_iff_right h2] at h
      exact_mod_cast h
    rw [hn, ofDatum, ofDatum, WordFormat.encode_zero, WordFormat.encode_zero]
  · obtain ⟨m, g, hm, hholds, hv⟩ :=
      WordFormat.single.exists_holds (e := e) hk hlt (by omega) (by omega)
    rw [ofDatum, ofDatum, hholds.encode_eq hm (h.trans hv), hholds.encode_eq hm hv]

end Sample

end EndlessRemix
