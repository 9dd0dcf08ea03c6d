import EndlessRemix.Proofs.Number.Rounding

/-!
# Rounding keeps order

Rounding moves a number by half a unit of its last place at most. A double either is a multiple of
that unit, or it is smaller than any number that is rounded there. So no number passes a double when
it is rounded, and a sum that is at or above a double before rounding is so afterwards, unless it is
too large for any finite one.
-/

namespace EndlessRemix

open Float.Model (Format UnpackedFloat)
open Float.Model.UnpackedFloat

namespace Double

/-! ## The last place -/

section

variable {m n : ℕ} {e f : ℤ}

/-- A number has less than `2 ^ 53` units of its last place. -/
lemma lt_mul_lastPlace (m : ℕ) (e : ℤ) : (m : ℚ) * 2 ^ e < 2 ^ 53 * 2 ^ lastPlace m e := by
  have hlt : (m : ℚ) < 2 ^ (m.log2 + 1) := by exact_mod_cast Nat.lt_log2_self
  calc (m : ℚ) * 2 ^ e < 2 ^ (m.log2 + 1) * 2 ^ e := mul_lt_mul_of_pos_right hlt (by positivity)
    _ = 2 ^ (((m.log2 + 1 : ℕ) : ℤ) + e) := by rw [zpow_add₀ (by norm_num), zpow_natCast]
    _ ≤ 2 ^ ((53 : ℤ) + lastPlace m e) := by
      apply zpow_le_zpow_right₀ (by norm_num)
      unfold lastPlace
      omega
    _ = 2 ^ 53 * 2 ^ lastPlace m e := by
      rw [zpow_add₀ (by norm_num)]
      norm_cast

/-- It has at least `2 ^ 52` of them, unless the last place is the least one. -/
lemma mul_lastPlace_le (hm : 0 < m) (h : -1074 < lastPlace m e) :
    2 ^ 52 * 2 ^ lastPlace m e ≤ (m : ℚ) * 2 ^ e := by
  have hle : (2 : ℚ) ^ m.log2 ≤ m := by exact_mod_cast Nat.log2_self_le hm.ne'
  have hplace : (52 : ℤ) + lastPlace m e = (m.log2 : ℤ) + e := by
    unfold lastPlace at h ⊢
    omega
  calc (2 : ℚ) ^ 52 * 2 ^ lastPlace m e = 2 ^ ((52 : ℤ) + lastPlace m e) := by
        rw [zpow_add₀ (by norm_num)]
        norm_cast
    _ = 2 ^ m.log2 * 2 ^ e := by rw [hplace, zpow_add₀ (by norm_num), zpow_natCast]
    _ ≤ (m : ℚ) * 2 ^ e := mul_le_mul_of_nonneg_right hle (by positivity)

/-- Canonical parts stand for a multiple of a unit, or for less than `2 ^ 52` of them. -/
lemma multiple_or_lt {s : Sign} {hn : 0 < n} (h : Canonical (.finite s n f hn)) {place : ℤ}
    (hplace : -1074 ≤ place) :
    (∃ k : ℕ, (n : ℚ) * 2 ^ f = k * 2 ^ place)
      ∨ -1074 < place ∧ (n : ℚ) * 2 ^ f < 2 ^ 52 * 2 ^ place := by
  obtain ⟨hlt, -, hleast, -⟩ := h
  rcases le_or_gt place f with hle | hgt
  · left
    refine ⟨n * 2 ^ (f - place).toNat, ?_⟩
    have hf : (2 : ℚ) ^ f = 2 ^ (f - place).toNat * 2 ^ place := by
      rw [← zpow_natCast, ← zpow_add₀ (by norm_num)]
      congr 1
      omega
    rw [hf, ← mul_assoc]
    push_cast
    rfl
  · right
    refine ⟨by omega, ?_⟩
    have hn' : (n : ℚ) < 2 ^ 53 := by exact_mod_cast hlt
    calc (n : ℚ) * 2 ^ f < 2 ^ 53 * 2 ^ f := mul_lt_mul_of_pos_right hn' (by positivity)
      _ = 2 ^ 52 * 2 ^ (f + 1) := by rw [zpow_add_one₀ (by norm_num)]; ring
      _ ≤ 2 ^ 52 * 2 ^ place := by
        apply mul_le_mul_of_nonneg_left _ (by norm_num)
        exact zpow_le_zpow_right₀ (by norm_num) (by omega)

/-- Canonical parts stand for less than `2 ^ 1024`. -/
lemma lt_of_canonical {s : Sign} {hn : 0 < n} (h : Canonical (.finite s n f hn)) :
    (n : ℚ) * 2 ^ f < 2 ^ (1024 : ℤ) := by
  obtain ⟨hlt, -, -, hf⟩ := h
  have hlt' : (n : ℚ) < 2 ^ (53 : ℤ) := by exact_mod_cast hlt
  calc (n : ℚ) * 2 ^ f < 2 ^ (53 : ℤ) * 2 ^ f := mul_lt_mul_of_pos_right hlt' (by positivity)
    _ = 2 ^ (53 + f) := (zpow_add₀ (by norm_num) _ _).symm
    _ ≤ 2 ^ (1024 : ℤ) := zpow_le_zpow_right₀ (by norm_num) (by omega)

/-- Parts with a long mantissa beyond the largest exponent stand for at least that. -/
lemma two_pow_le_of_large (hm : 2 ^ 52 ≤ m) (he : 972 ≤ e) : 2 ^ (1024 : ℤ) ≤ (m : ℚ) * 2 ^ e := by
  have hm' : (2 : ℚ) ^ (52 : ℤ) ≤ m := by exact_mod_cast hm
  calc (2 : ℚ) ^ (1024 : ℤ) ≤ 2 ^ (52 + e) := zpow_le_zpow_right₀ (by norm_num) (by omega)
    _ = 2 ^ (52 : ℤ) * 2 ^ e := zpow_add₀ (by norm_num) _ _
    _ ≤ (m : ℚ) * 2 ^ e := mul_le_mul_of_nonneg_right hm' (by positivity)

end

/-! ## Rounding at a place -/

/-- A number is counted in units of a place to within one half, to an even count if there are two,
and has 53 binary digits there unless the place is the least one. -/
structure Rounded (q : ℚ) (r : ℕ) (place : ℤ) : Prop where
  least : -1074 ≤ place
  full : -1074 < place → 2 ^ 52 * 2 ^ place ≤ q
  lt : q < 2 ^ 53 * 2 ^ place
  near : |(r : ℚ) * 2 ^ place - q| ≤ 2 ^ place / 2
  even : |(r : ℚ) * 2 ^ place - q| = 2 ^ place / 2 → Even r

namespace Rounded

variable {q : ℚ} {r k : ℕ} {place : ℤ}

/-- The number of units is not below any other that the number itself is not below. -/
lemma le_of_le (h : Rounded q r place) (hk : (k : ℚ) * 2 ^ place ≤ q) : k ≤ r := by
  have h2 : (0 : ℚ) < 2 ^ place := by positivity
  have hlow := (abs_le.mp h.near).1
  have hlt : (k : ℚ) < (r + 1 : ℕ) := by
    apply lt_of_mul_lt_mul_right _ h2.le
    push_cast
    linarith
  exact Nat.lt_succ_iff.mp (by exact_mod_cast hlt)

/-- Nor is it above any that the number is not above. -/
lemma ge_of_ge (h : Rounded q r place) (hk : q ≤ (k : ℚ) * 2 ^ place) : r ≤ k := by
  have h2 : (0 : ℚ) < 2 ^ place := by positivity
  have hhigh := (abs_le.mp h.near).2
  have hlt : (r : ℚ) < (k + 1 : ℕ) := by
    apply lt_of_mul_lt_mul_right _ h2.le
    push_cast
    linarith
  exact Nat.lt_succ_iff.mp (by exact_mod_cast hlt)

/-- Rounding may add a place at the front. -/
lemma le_two_pow (h : Rounded q r place) : r ≤ 2 ^ 53 :=
  h.ge_of_ge (by push_cast; exact h.lt.le)

lemma full_or_least (h : Rounded q r place) : 2 ^ 52 ≤ r ∨ place = -1074 := by
  rcases h.least.lt_or_eq with hlt | heq
  · exact .inl (h.le_of_le (by push_cast; exact h.full hlt))
  · exact .inr heq.symm

variable {s : Sign} {n : ℕ} {f : ℤ} {hn : 0 < n}

/-- A number that is not below canonical parts is not rounded below them. -/
lemma canonical_le (h : Rounded q r place) (hc : Canonical (.finite s n f hn))
    (hle : (n : ℚ) * 2 ^ f ≤ q) : (n : ℚ) * 2 ^ f ≤ r * 2 ^ place := by
  have h2 : (0 : ℚ) < 2 ^ place := by positivity
  rcases multiple_or_lt hc h.least with ⟨k, hk⟩ | ⟨hplace, hlt⟩
  · rw [hk] at hle ⊢
    exact mul_le_mul_of_nonneg_right (by exact_mod_cast h.le_of_le hle) h2.le
  · have hr : ((2 ^ 52 : ℕ) : ℚ) ≤ r := by
      exact_mod_cast h.full_or_least.resolve_right (by omega)
    push_cast at hr
    exact hlt.le.trans (mul_le_mul_of_nonneg_right hr h2.le)

/-- A number that is not above canonical parts is not rounded above them. -/
lemma le_canonical (h : Rounded q r place) (hc : Canonical (.finite s n f hn))
    (hle : q ≤ (n : ℚ) * 2 ^ f) : (r : ℚ) * 2 ^ place ≤ n * 2 ^ f := by
  have h2 : (0 : ℚ) < 2 ^ place := by positivity
  rcases multiple_or_lt hc h.least with ⟨k, hk⟩ | ⟨hplace, hlt⟩
  · rw [hk] at hle ⊢
    exact mul_le_mul_of_nonneg_right (by exact_mod_cast h.ge_of_ge hle) h2.le
  · -- what is rounded at this place is larger
    linarith [h.full hplace]

end Rounded

/-! ## What rounding gives -/

/-- Parts beyond the largest exponent are packed as an infinity. -/
lemma unpacked_packed_large (s : Sign) {m : ℕ} {e : ℤ} (hm : 0 < m) (he : 972 ≤ e) :
    unpacked (packed (.finite s m e hm)) = .infinity s := by
  show unpack .binary64 (pack .binary64 (.finite s m e hm)) = _
  rw [pack_finite, if_pos (by omega), unpack_packComponents, if_pos rfl, if_pos rfl]

/-- The first shift counts the units of the last place, and keeps the two bits that round them. -/
lemma exists_first {m : ℕ} {e : ℤ} (hm : 0 < m) (he : e ≤ lastPlace m e) :
    ∃ x : ExtendedMantissa, shiftToTargetExponent .binary64 m e .exact = (x, lastPlace m e)
      ∧ Rounded (m * 2 ^ e) x.roundedMantissa (lastPlace m e) := by
  obtain ⟨k, hk⟩ : ∃ k : ℕ, lastPlace m e = e + k := ⟨(lastPlace m e - e).toNat, by omega⟩
  have hshift : (e + (k : ℤ) - e).toNat = k := by omega
  have hcut := (cut_exact m).shiftRight k
  have h2 : (0 : ℚ) < 2 ^ lastPlace m e := by positivity
  have hv : (m : ℚ) / 2 ^ k * 2 ^ lastPlace m e = m * 2 ^ e := by
    rw [hk, zpow_add₀ (by norm_num), zpow_natCast]
    field_simp
  have hhalf : (2 : ℚ) ^ lastPlace m e / 2 = 1 / 2 * 2 ^ lastPlace m e := by ring
  refine ⟨Nat.repeat ExtendedMantissa.shiftRightOne k (.ofMantissaAndAccuracy m .exact), ?_,
    le_max_right _ _, mul_lastPlace_le hm, lt_mul_lastPlace m e, ?_, ?_⟩
  · rw [shiftToTargetExponent, targetExponent_eq, hk]
    simp only [shiftToExponent, hshift]
    rfl
  · rw [← hv, ← sub_mul, abs_mul, abs_of_pos h2, hhalf]
    exact mul_le_mul_of_nonneg_right hcut.abs_roundedMantissa_sub_le h2.le
  · rw [← hv, ← sub_mul, abs_mul, abs_of_pos h2, hhalf]
    intro htie
    exact hcut.even_roundedMantissa (mul_right_cancel₀ h2.ne' htie)

/-- What a count of units is packed as: the double of that value, or an infinity if that is too
large. -/
def PackedAs (x : Float) (s : Sign) (r : ℕ) (place : ℤ) : Prop :=
  value? x = some (((s.apply r : ℤ) : ℚ) * 2 ^ place)
    ∨ unpacked x = .infinity s ∧ 2 ^ (1024 : ℤ) ≤ (r : ℚ) * 2 ^ place

/-- A number that is written with all its places is rounded at the last that it keeps. -/
lemma exists_roundWithAccuracy (s : Sign) {m : ℕ} {e : ℤ} (hm : 0 < m) (he : e ≤ lastPlace m e) :
    ∃ (r : ℕ) (place : ℤ), Rounded (m * 2 ^ e) r place
      ∧ PackedAs (packed (roundWithAccuracy .binary64 s m e .exact)) s r place := by
  obtain ⟨x, hfirst, hrounded⟩ := exists_first hm he
  refine ⟨x.roundedMantissa, lastPlace m e, hrounded, ?_⟩
  unfold roundWithAccuracy
  rcases Nat.eq_zero_or_pos x.roundedMantissa with hzero | hpos
  · -- nothing is left at the least place
    left
    have hplace := hrounded.full_or_least.resolve_left (by omega)
    have hsecond : shiftToTargetExponent .binary64 0 (-1074) .exact
        = (⟨0, false, false⟩, -1074) := rfl
    simp only [hfirst, hzero, hplace, hsecond, dite_true]
    rw [value?_packed_zero]
    cases s <;> simp [Sign.apply]
  · obtain ⟨m', f, hm', hsecond, hlt, hfull, hleast, -, hvalue⟩ :=
      exists_second hpos hrounded.le_two_pow hrounded.full_or_least hrounded.least
    simp only [hfirst, hsecond, hm'.ne', dite_false]
    rcases le_or_gt f 971 with hf | hf
    · exact .inl (value?_packed_of_eq ⟨hlt, hfull, hleast, hf⟩ hvalue)
    · refine .inr ⟨unpacked_packed_large s hm' hf, ?_⟩
      rw [← hvalue]
      exact two_pow_le_of_large (hfull.resolve_right (by omega)) hf

/-- Every positive number is rounded at some place. -/
theorem exists_rounded (s : Sign) {m : ℕ} (hm : 0 < m) (e : ℤ) :
    ∃ (r : ℕ) (place : ℤ), Rounded (m * 2 ^ e) r place
      ∧ PackedAs (packed (Float.Model.UnpackedFloat.round .binary64 s m e)) s r place := by
  -- before it is rounded, it is written with all the places that it keeps
  obtain ⟨k, hk⟩ : ∃ k, (e - lastPlace m e).toNat = k := ⟨_, rfl⟩
  have hplace := lastPlace_mul_two_pow hm k e
  have hv : ((m * 2 ^ k : ℕ) : ℚ) * 2 ^ (e - k) = m * 2 ^ e := by
    rw [zpow_sub₀ (by norm_num), zpow_natCast]
    push_cast
    field_simp
  rw [Float.Model.UnpackedFloat.round, targetExponent_eq]
  simp only [decreaseExponent, Nat.shiftLeft_eq, hk]
  rw [← hv]
  exact exists_roundWithAccuracy s (by positivity) (by omega)

/-! ## No number passes a double -/

/-- A double is finite and not below a number, or it is the largest infinity. -/
def AtLeast (x : Float) (b : ℚ) : Prop :=
  (∃ q, value? x = some q ∧ b ≤ q) ∨ unpacked x = .infinity .positive

section

variable {p : Float} {b : ℚ}

/-- A finite double is zero, or it has canonical parts. -/
lemma canonical_of_value (hp : value? p = some b) :
    b = 0 ∨ ∃ (t : Sign) (n : ℕ) (f : ℤ) (hn : 0 < n), Canonical (.finite t n f hn)
      ∧ b = ((t.apply n : ℤ) : ℚ) * 2 ^ f := by
  have hc := canonical_unpacked p
  unfold value? at hp
  generalize unpacked p = u at *
  cases u with
  | notANumber => cases hp
  | infinity t => cases hp
  | zero t => exact .inl (Option.some.inj hp).symm
  | finite t n f hn => exact .inr ⟨t, n, f, hn, hc, (Option.some.inj hp).symm⟩

/-- A positive number that is not below a double is not rounded below it. -/
lemma atLeast_round_positive {m : ℕ} {e : ℤ} (hm : 0 < m) (hp : value? p = some b)
    (hle : b ≤ (m : ℚ) * 2 ^ e) :
    AtLeast (packed (Float.Model.UnpackedFloat.round .binary64 .positive m e)) b := by
  obtain ⟨r, place, hrounded, hvalue | ⟨hinf, -⟩⟩ := exists_rounded .positive hm e
  · refine .inl ⟨_, hvalue, ?_⟩
    have hnonneg : (0 : ℚ) ≤ (r : ℤ) * 2 ^ place := by positivity
    rcases canonical_of_value hp with rfl | ⟨t, n, f, hn, hc, rfl⟩
    · exact hnonneg
    · cases t with
      | positive => exact hrounded.canonical_le hc hle
      | negative =>
        have hpos : (0 : ℚ) < n * 2 ^ f := by positivity
        refine le_trans ?_ hnonneg
        simp only [Sign.apply]
        push_cast
        linarith
  · exact .inr hinf

/-- A negative number that is not below a double is not rounded below it. -/
lemma atLeast_round_negative {m : ℕ} {e : ℤ} (hm : 0 < m) (hp : value? p = some b)
    (hle : b ≤ -((m : ℚ) * 2 ^ e)) :
    AtLeast (packed (Float.Model.UnpackedFloat.round .binary64 .negative m e)) b := by
  have hpos : (0 : ℚ) < m * 2 ^ e := by positivity
  rcases canonical_of_value hp with rfl | ⟨t, n, f, hn, hc, rfl⟩
  · linarith
  cases t with
  | positive =>
    have hnonneg : (0 : ℚ) ≤ (n : ℤ) * 2 ^ f := by positivity
    simp only [Sign.apply] at hle
    linarith
  | negative =>
    simp only [Sign.apply] at hle ⊢
    push_cast at hle ⊢
    obtain ⟨r, place, hrounded, hvalue | ⟨-, hlarge⟩⟩ := exists_rounded .negative hm e
    · refine .inl ⟨_, hvalue, ?_⟩
      have hr := hrounded.le_canonical hc (by linarith)
      simp only [Sign.apply]
      push_cast
      linarith
    · -- it is not large enough for an infinity
      have hr := hrounded.le_canonical hc (by linarith)
      exact absurd (hr.trans_lt (lt_of_canonical hc)) hlarge.not_gt

/-- A number that is not below a double is not rounded below it. -/
lemma atLeast_normalize {m e : ℤ} (s : Sign) (hp : value? p = some b) (hle : b ≤ (m : ℚ) * 2 ^ e) :
    AtLeast (packed (Float.Model.UnpackedFloat.normalize .binary64 m e s)) b := by
  rcases normalize_cases rfl s with ⟨hzero, hparts⟩ | ⟨t, n, hn, hsize, hparts⟩
  · rw [hparts]
    exact .inl ⟨0, value?_packed_zero s, hle.trans_eq hzero⟩
  · rw [← hsize] at hle
    rw [hparts]
    cases t with
    | positive => exact atLeast_round_positive hn hp hle
    | negative =>
      apply atLeast_round_negative hn hp
      simpa [Sign.apply] using hle

variable {x y : Float} {a c : ℚ}

/-- A sum of doubles that is not below a double is not rounded below it. -/
theorem atLeast_add (hx : value? x = some a) (hy : value? y = some c) (hp : value? p = some b)
    (hle : b ≤ a + c) : AtLeast (x + y) b := by
  show AtLeast (packed ((unpacked x).add .binary64 (unpacked y))) b
  rcases add_cases (canonical_unpacked x) (canonical_unpacked y) hx hy with
    hexact | ⟨m, e, hsum, hparts⟩
  · exact .inl ⟨_, hexact, hle⟩
  · rw [hparts]
    exact atLeast_normalize .positive hp (hle.trans_eq hsum.symm)

end

end Double

end EndlessRemix
