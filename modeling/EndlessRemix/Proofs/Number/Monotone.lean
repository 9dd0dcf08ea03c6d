import EndlessRemix.Proofs.Number.Sign

/-!
# Sums and products keep order

The sum and the product of two doubles that are not below zero are their exact sum and product,
rounded once. Rounding keeps the order of numbers, and leaves alone a number that a double can hold.
So larger operands do not give a smaller result, and a result that needs no rounding is exact. What
this means for a weighted sum is the law of a `MonotoneArithmetic`.
-/

namespace EndlessRemix

/-- The laws of an arithmetic in which a weighted sum of sizes is lowered with its parts, as it is
under any rounding that keeps order. -/
class MonotoneArithmetic (R : Type) [Scalar R] where
  /-- The first number is at most the second one, in so far as the second one is finite. -/
  Lowered : R → R → Prop
  lowered_zero : Lowered 0 0
  lowered_of_le : ∀ {x y : R}, 0 ≤ x → x ≤ y → Lowered x y
  lowered_add : ∀ {x x' y y' : R}, Lowered x' x → Lowered y' y → Lowered (x' + y') (x + y)
  lowered_mul : ∀ {x y y' : R}, ¬x < 0 → 0 ≤ y' → y' ≤ y → Lowered (x * y') (x * y)
  lt_of_lowered : ∀ {x x' t t' : R}, Lowered x' x → x < t → t ≤ t' → x' < t'
  not_sqrt_lt_zero : ∀ x : R, ¬Scalar.sqrt x < 0
  not_abs_lt_zero : ∀ x : R, ¬Scalar.abs x < 0

open Float.Model (Format UnpackedFloat)
open Float.Model.UnpackedFloat

namespace Double

/-! ## Rounding keeps order -/

lemma two_mul_two_pow_le {e f : ℤ} (h : e < f) : 2 * 2 ^ e ≤ (2 : ℚ) ^ f := by
  rw [← zpow_one_add₀ (by norm_num)]
  exact zpow_le_zpow_right₀ one_le_two (by omega)

namespace Rounded

variable {q q' : ℚ} {r r' : ℕ} {place place' : ℤ}

/-- At one place, counts are ordered like the numbers that they count. -/
lemma mono_same (h : Rounded q r place) (h' : Rounded q' r' place) (hle : q ≤ q') : r ≤ r' := by
  have h2 : (0 : ℚ) < 2 ^ place := by positivity
  have hnear := (abs_le.mp h.near).2
  have hnear' := (abs_le.mp h'.near).1
  by_contra hlt
  have hnext : (r' : ℚ) + 1 ≤ r := by exact_mod_cast not_le.mp hlt
  have hmul := mul_le_mul_of_nonneg_right hnext h2.le
  -- both numbers are halfway between two counts, and both counts would have to be even
  have htie : |(r : ℚ) * 2 ^ place - q| = 2 ^ place / 2 := by
    rw [abs_of_nonneg (by linarith)]
    linarith
  have htie' : |(r' : ℚ) * 2 ^ place - q'| = 2 ^ place / 2 := by
    rw [abs_of_nonpos (by linarith)]
    linarith
  have hsucc : r = r' + 1 := by
    have hle : (r : ℚ) ≤ r' + 1 := le_of_mul_le_mul_right (by linarith) h2
    exact le_antisymm (by exact_mod_cast hle) (not_le.mp hlt)
  have heven := h.even htie
  rw [hsucc, Nat.even_add_one] at heven
  exact heven (h'.even htie')

/-- A smaller number is not rounded at a higher place. -/
lemma place_le (h : Rounded q r place) (h' : Rounded q' r' place') (hle : q ≤ q') :
    place ≤ place' := by
  by_contra hlt
  have hplace := h'.least
  have hfull := h.full (by omega)
  have hdouble := two_mul_two_pow_le (not_le.mp hlt)
  linarith [h'.lt]

/-- Rounded numbers are ordered like the numbers themselves. -/
theorem mono (h : Rounded q r place) (h' : Rounded q' r' place') (hle : q ≤ q') :
    (r : ℚ) * 2 ^ place ≤ r' * 2 ^ place' := by
  rcases (h.place_le h' hle).lt_or_eq with hlt | rfl
  · -- the larger number has all its digits at a higher place
    have hplace := h.least
    have hdouble := two_mul_two_pow_le hlt
    have hfull : 2 ^ 52 ≤ r' := h'.le_of_le (by push_cast; exact h'.full (by omega))
    calc (r : ℚ) * 2 ^ place ≤ 2 ^ 53 * 2 ^ place :=
          mul_le_mul_of_nonneg_right (by exact_mod_cast h.le_two_pow) (by positivity)
      _ = 2 ^ 52 * (2 * 2 ^ place) := by ring
      _ ≤ 2 ^ 52 * 2 ^ place' := mul_le_mul_of_nonneg_left hdouble (by positivity)
      _ ≤ r' * 2 ^ place' := mul_le_mul_of_nonneg_right (by exact_mod_cast hfull) (by positivity)
  · exact mul_le_mul_of_nonneg_right (by exact_mod_cast h.mono_same h' hle) (by positivity)

/-- Canonical parts stand for a number that is rounded to itself. -/
lemma of_canonical {s : Sign} {n : ℕ} {f : ℤ} {hn : 0 < n} (h : Canonical (.finite s n f hn)) :
    Rounded (n * 2 ^ f) n f := by
  obtain ⟨hlt, hfull, hleast, -⟩ := h
  have h2 : (0 : ℚ) < 2 ^ f := by positivity
  constructor
  · exact hleast
  · intro hplace
    have hfull : 2 ^ 52 ≤ n := hfull.resolve_right (by omega)
    exact mul_le_mul_of_nonneg_right (by exact_mod_cast hfull) h2.le
  · exact mul_lt_mul_of_pos_right (by exact_mod_cast hlt) h2
  · rw [sub_self, abs_zero]
    positivity
  · intro htie
    rw [sub_self, abs_zero] at htie
    linarith

end Rounded

/-! ## Results -/

/-- Every finite double is below `2 ^ 1024`. -/
lemma lt_of_value {x : Float} {a : ℚ} (h : value? x = some a) : a < 2 ^ (1024 : ℤ) := by
  have h2 : (0 : ℚ) < 2 ^ (1024 : ℤ) := by positivity
  rcases canonical_of_value h with rfl | ⟨s, n, f, hn, hc, rfl⟩
  · exact h2
  · cases s with
    | positive => exact lt_of_canonical hc
    | negative =>
      have hpos : (0 : ℚ) < n * 2 ^ f := by positivity
      refine lt_trans ?_ h2
      simp only [Sign.apply]
      push_cast
      linarith

/-- A double is what a number that is not below zero is rounded to. -/
inductive RoundedFrom (q : ℚ) (x : Float) : Prop where
  | zero (hq : q = 0) (hx : value? x = some 0)
  | positive {r : ℕ} {place : ℤ} (hq : 0 < q) (hrounded : Rounded q r place)
      (hx : PackedAs x .positive r place)

namespace RoundedFrom

variable {x y : Float} {a b q q' : ℚ}

/-- A number is rounded to a number that is not below zero, or beyond all doubles. -/
lemma cases_value (h : RoundedFrom q x) :
    (∃ c, value? x = some c ∧ 0 ≤ c) ∨ unpacked x = .infinity .positive := by
  rcases h with ⟨-, hx⟩ | ⟨-, -, hx | ⟨hx, -⟩⟩
  · exact .inl ⟨0, hx, le_rfl⟩
  · exact .inl ⟨_, hx, by simp only [Sign.apply]; positivity⟩
  · exact .inr hx

lemma eq_zero (h : RoundedFrom 0 x) : value? x = some 0 := by
  rcases h with ⟨-, hx⟩ | ⟨hpos, -, -⟩
  · exact hx
  · exact absurd hpos (lt_irrefl 0)

/-- A number that a double can hold is rounded to itself. -/
lemma eq_of_canonical {s : Sign} {n : ℕ} {f : ℤ} {hn : 0 < n} (h : RoundedFrom q x)
    (hc : Canonical (.finite s n f hn)) (hq : q = n * 2 ^ f) : value? x = some q := by
  have hpos : (0 : ℚ) < n * 2 ^ f := by positivity
  rcases h with ⟨rfl, -⟩ | ⟨-, hrounded, hx⟩
  · linarith
  · have heq := le_antisymm (hrounded.le_canonical hc hq.le) (hrounded.canonical_le hc hq.ge)
    rcases hx with hx | ⟨-, hlarge⟩
    · rw [hx, hq, ← heq]
      rfl
    · rw [heq] at hlarge
      exact absurd (lt_of_canonical hc) hlarge.not_gt

/-- A smaller number is rounded to a smaller one, if the larger one is not rounded beyond all
doubles. -/
theorem mono {c' : ℚ} (h : RoundedFrom q x) (h' : RoundedFrom q' y) (hle : q ≤ q')
    (hy : value? y = some c') : ∃ c, value? x = some c ∧ c ≤ c' := by
  have hc' : 0 ≤ c' := by
    rcases h'.cases_value with ⟨c, hc, h0⟩ | hinf
    · rwa [Option.some.inj (hy.symm.trans hc)]
    · rw [value?, hinf] at hy
      cases hy
  rcases h with ⟨-, hx⟩ | ⟨hpos, hrounded, hx⟩
  · exact ⟨0, hx, hc'⟩
  · rcases h' with ⟨rfl, -⟩ | ⟨-, hrounded', hy'⟩
    · linarith
    have hmono := hrounded.mono hrounded' hle
    rcases hy' with hy' | ⟨hinf, -⟩
    · obtain rfl := Option.some.inj (hy.symm.trans hy')
      rcases hx with hx | ⟨-, hlarge⟩
      · exact ⟨_, hx, hmono⟩
      · exact absurd (lt_of_value hy) (hlarge.trans hmono).not_gt
    · rw [value?, hinf] at hy
      cases hy

/-- The doubles that two numbers are rounded to are ordered like the numbers. -/
lemma le_of_le {c' : ℚ} (h : RoundedFrom q x) (h' : RoundedFrom q' y) (hle : q ≤ q')
    (hy : value? y = some c') : 0 ≤ x ∧ x ≤ y := by
  obtain ⟨c, hc, hle⟩ := h.mono h' hle hy
  refine ⟨(le_iff_of_value value?_zero hc).mpr ?_, (le_iff_of_value hc hy).mpr hle⟩
  rcases h.cases_value with ⟨d, hd, h0⟩ | hinf
  · rwa [Option.some.inj (hc.symm.trans hd)]
  · rw [value?, hinf] at hc
    cases hc

/-- A double that is not below zero is rounded already. -/
lemma of_value (hx : value? x = some a) (ha : 0 ≤ a) : RoundedFrom a x := by
  rcases ha.eq_or_lt with rfl | hpos
  · exact .zero rfl hx
  rcases canonical_of_value hx with rfl | ⟨s, n, f, hn, hc, rfl⟩
  · exact .zero rfl hx
  · have hvalue : 0 < (n : ℚ) * 2 ^ f := by positivity
    cases s with
    | positive => exact .positive hvalue (.of_canonical hc) (.inl hx)
    | negative =>
      simp only [Sign.apply] at hpos
      push_cast at hpos
      linarith

/-- What is written with all its places is rounded once. -/
lemma of_roundWithAccuracy {m : ℕ} {e : ℤ} (hm : 0 < m) (he : e ≤ lastPlace m e) :
    RoundedFrom (m * 2 ^ e) (packed (roundWithAccuracy .binary64 .positive m e .exact)) := by
  obtain ⟨r, place, hrounded, hpacked⟩ := exists_roundWithAccuracy .positive hm he
  exact .positive (by positivity) hrounded hpacked

/-- A sum of parts that is not below zero is the exact sum, rounded. -/
theorem add_parts {u v : Float.Model.UnpackedFloat} (hu : Canonical u) (hv : Canonical v)
    (ha : valueOf u = some a) (hb : valueOf v = some b) (hsum : 0 ≤ a + b) :
    RoundedFrom (a + b) (packed (u.add .binary64 v)) := by
  rcases add_cases hu hv ha hb with hexact | ⟨m, e, hparts, hadd⟩
  · exact of_value hexact hsum
  · rw [hadd]
    rcases normalize_cases hparts .positive with ⟨hzero, hnormal⟩ | ⟨t, n, hn, hsize, hnormal⟩
    · rw [hnormal]
      exact .zero hzero (value?_packed_zero _)
    · rw [← hsize] at hsum ⊢
      rw [hnormal]
      cases t with
      | positive =>
        obtain ⟨r, place, hrounded, hpacked⟩ := exists_rounded .positive hn e
        exact .positive (positive_value_pos hn e) hrounded hpacked
      | negative => exact absurd hsum (negative_value_neg hn e).not_ge

/-- A sum is the exact sum, rounded. -/
theorem add (hx : value? x = some a) (ha : 0 ≤ a) (hy : value? y = some b) (hb : 0 ≤ b) :
    RoundedFrom (a + b) (x + y) :=
  add_parts (canonical_unpacked x) (canonical_unpacked y) hx hy (add_nonneg ha hb)

/-- A difference that is not below zero is the exact difference, rounded. -/
theorem sub (hx : value? x = some a) (hy : value? y = some b) (hle : b ≤ a) :
    RoundedFrom (a - b) (x - y) := by
  have hsum : 0 ≤ a + -b := by linarith
  rw [sub_eq_add_neg a b]
  show RoundedFrom (a + -b) (packed ((unpacked x).sub .binary64 (unpacked y)))
  rw [sub_eq_add_neg_parts]
  exact add_parts (canonical_unpacked x) (canonical_neg (canonical_unpacked y)) hx
    (valueOf_neg hy) hsum

/-- A product of mantissas is written with all its places. -/
lemma le_lastPlace_mul {s t : Sign} {m n : ℕ} {e f : ℤ} {hm : 0 < m} {hn : 0 < n}
    (hx : Canonical (.finite s m e hm)) (hy : Canonical (.finite t n f hn)) :
    e + f ≤ lastPlace (m * n) (e + f) := by
  obtain ⟨-, hme, -, -⟩ := hx
  obtain ⟨-, hnf, -, -⟩ := hy
  have hlog : 2 ^ 52 ≤ m * n → 52 ≤ (m * n).log2 := (Nat.le_log2 (Nat.mul_pos hm hn).ne').mpr
  unfold lastPlace
  rcases hme with hme | rfl
  · have := hlog (hme.trans (Nat.le_mul_of_pos_right m hn))
    omega
  · rcases hnf with hnf | rfl
    · have := hlog (hnf.trans (Nat.le_mul_of_pos_left n hm))
      omega
    · omega

/-- A product is the exact product, rounded. -/
theorem mul (hx : value? x = some a) (ha : 0 ≤ a) (hy : value? y = some b) (hb : 0 ≤ b) :
    RoundedFrom (a * b) (x * y) := by
  show RoundedFrom (a * b) (packed ((unpacked x).mul .binary64 (unpacked y)))
  have hcx := canonical_unpacked x
  have hcy := canonical_unpacked y
  unfold value? at hx hy
  generalize unpacked x = u, unpacked y = v at *
  rcases mul_cases hx hy with ⟨hzero, hvalue⟩ | ⟨s, t, m, k, e, g, hm, hk, rfl, rfl⟩
  · exact .zero hzero hvalue
  · obtain rfl := eq_positive_of_nonneg hx ha
    obtain rfl := eq_positive_of_nonneg hy hb
    have hab : a * b = ((m * k : ℕ) : ℚ) * 2 ^ (e + g) := by
      rw [← Option.some.inj hx, ← Option.some.inj hy, zpow_add₀ two_ne_zero]
      simp only [Sign.apply]
      push_cast
      ring
    rw [hab]
    exact of_roundWithAccuracy (Nat.mul_pos hm hk) (le_lastPlace_mul hcx hcy)

end RoundedFrom

/-! ## Finite results -/

section

variable {x y : Float}

/-- A sum of doubles that are not both finite is not finite. -/
lemma value?_add_eq_none (h : value? x = none ∨ value? y = none) : value? (x + y) = none := by
  show value? (packed ((unpacked x).add .binary64 (unpacked y))) = none
  unfold value? at h
  generalize unpacked x = u, unpacked y = v at *
  cases u with
  | notANumber => cases v <;> exact value?_packed_notANumber
  | infinity s => cases v with
    | infinity t => cases s with
      | positive => cases t with
        | positive => exact value?_packed_infinity .positive
        | negative => exact value?_packed_notANumber
      | negative => cases t with
        | positive => exact value?_packed_notANumber
        | negative => exact value?_packed_infinity .negative
    | notANumber => exact value?_packed_notANumber
    | zero t => exact value?_packed_infinity s
    | finite t n f hn => exact value?_packed_infinity s
  | zero s => cases v with
    | infinity t => exact value?_packed_infinity t
    | notANumber => exact value?_packed_notANumber
    | zero t => rcases h with h | h <;> cases h
    | finite t n f hn => rcases h with h | h <;> cases h
  | finite s m e hm => cases v with
    | infinity t => exact value?_packed_infinity t
    | notANumber => exact value?_packed_notANumber
    | zero t => rcases h with h | h <;> cases h
    | finite t n f hn => rcases h with h | h <;> cases h

/-- A product with a double that is not finite, on either side, is not finite. -/
lemma value?_mul_eq_none_right (h : value? y = none) : value? (x * y) = none := by
  show value? (packed ((unpacked x).mul .binary64 (unpacked y))) = none
  unfold value? at h
  generalize unpacked x = u, unpacked y = v at *
  cases v with
  | notANumber => cases u <;> exact value?_packed_notANumber
  | infinity t => cases u with
    | infinity s => exact value?_packed_infinity _
    | finite s m e hm => exact value?_packed_infinity _
    | _ => exact value?_packed_notANumber
  | zero t => cases h
  | finite t n f hn => cases h

/-- A finite sum has finite parts. -/
lemma exists_values_of_add {c : ℚ} (h : value? (x + y) = some c) :
    (∃ a, value? x = some a) ∧ ∃ b, value? y = some b := by
  constructor
  · apply Option.ne_none_iff_exists'.mp
    intro hnone
    rw [value?_add_eq_none (.inl hnone)] at h
    cases h
  · apply Option.ne_none_iff_exists'.mp
    intro hnone
    rw [value?_add_eq_none (.inr hnone)] at h
    cases h

/-- A finite product has finite factors. -/
lemma exists_values_of_mul {c : ℚ} (h : value? (x * y) = some c) :
    (∃ a, value? x = some a) ∧ ∃ b, value? y = some b := by
  constructor
  · apply Option.ne_none_iff_exists'.mp
    intro hnone
    rw [value?_mul_eq_none hnone] at h
    cases h
  · apply Option.ne_none_iff_exists'.mp
    intro hnone
    rw [value?_mul_eq_none_right hnone] at h
    cases h

/-- Only the largest infinity is at or above itself. -/
lemma unpacked_infinity_of_le (hx : unpacked x = .infinity .positive) (h : x ≤ y) :
    unpacked y = .infinity .positive := by
  rcases le_cases h with ⟨hx', -⟩ | ⟨hy, -⟩ | ⟨a, b, ha, -, -⟩
  · rw [hx] at hx'
    cases hx'
  · exact hy
  · rw [value?, hx] at ha
    cases ha

end

/-! ## Lowered numbers -/

/-- A finite double is lowered to one that is between zero and it. Of an infinity, and of what is no
number, it is only said that it is not below zero. -/
structure Lowered (x' x : Float) : Prop where
  not_lt_zero : ¬x < 0
  between : Scalar.isFinite x = true → 0 ≤ x' ∧ x' ≤ x

namespace Lowered

variable {x x' y y' : Float}

lemma of_le (h0 : 0 ≤ x') (hle : x' ≤ x) : Lowered x' x := by
  refine ⟨?_, fun _ => ⟨h0, hle⟩⟩
  rcases exists_value_of_le value?_zero h0 with ⟨a, ha⟩ | hinf
  · rcases exists_value_of_le ha hle with ⟨b, hb⟩ | hinf
    · have ha0 := (le_iff_of_value value?_zero ha).mp h0
      have hab := (le_iff_of_value ha hb).mp hle
      exact mt (lt_iff_of_value hb value?_zero).mp (not_lt.mpr (ha0.trans hab))
    · exact not_infinity_lt hinf
  · exact not_infinity_lt (unpacked_infinity_of_le hinf hle)

/-- The values of a finite number and of one that it is lowered to. -/
lemma exists_values {a : ℚ} (h : Lowered x' x) (ha : value? x = some a) :
    ∃ a', value? x' = some a' ∧ 0 ≤ a' ∧ a' ≤ a := by
  obtain ⟨h0, hle⟩ := h.between ((isFinite_iff x).mpr ⟨a, ha⟩)
  obtain ⟨a', ha'⟩ := exists_value_of_between value?_zero ha h0 hle
  exact ⟨a', ha', (le_iff_of_value value?_zero ha').mp h0, (le_iff_of_value ha' ha).mp hle⟩

theorem add (hx : Lowered x' x) (hy : Lowered y' y) : Lowered (x' + y') (x + y) := by
  refine ⟨not_add_lt_zero hx.not_lt_zero hy.not_lt_zero, ?_⟩
  intro hfinite
  obtain ⟨c, hc⟩ := (isFinite_iff _).mp hfinite
  obtain ⟨⟨a, ha⟩, b, hb⟩ := exists_values_of_add hc
  obtain ⟨a', ha', h0, hle⟩ := hx.exists_values ha
  obtain ⟨b', hb', h0', hle'⟩ := hy.exists_values hb
  exact RoundedFrom.le_of_le (.add ha' h0 hb' h0') (.add ha (h0.trans hle) hb (h0'.trans hle'))
    (add_le_add hle hle') hc

/-- A product is lowered with its second factor. -/
theorem mul (hx : ¬x < 0) (hy : Lowered y' y) : Lowered (x * y') (x * y) := by
  refine ⟨not_mul_lt_zero hx hy.not_lt_zero, ?_⟩
  intro hfinite
  obtain ⟨c, hc⟩ := (isFinite_iff _).mp hfinite
  obtain ⟨⟨a, ha⟩, b, hb⟩ := exists_values_of_mul hc
  obtain ⟨b', hb', h0', hle⟩ := hy.exists_values hb
  have h0 : 0 ≤ a := not_lt.mp (mt (lt_iff_of_value ha value?_zero).mpr hx)
  exact RoundedFrom.le_of_le (.mul ha h0 hb' h0') (.mul ha h0 hb (h0'.trans hle))
    (mul_le_mul_of_nonneg_left hle h0) hc

/-- What is below a bound is finite, and is lowered below every larger bound. -/
theorem lt_of_lt {t t' : Float} (h : Lowered x' x) (hlt : x < t) (hle : t ≤ t') : x' < t' := by
  -- what is not below zero and below something is a number and not the largest infinity
  obtain ⟨b, hb⟩ : ∃ b, value? x = some b := by
    rcases atLeast_zero_or h.not_lt_zero with hnan | ⟨b, hb, -⟩ | hinf
    · exact absurd hlt (not_notANumber_lt hnan)
    · exact ⟨b, hb⟩
    · exact absurd hlt (not_infinity_lt hinf)
  obtain ⟨a, ha, -, hab⟩ := h.exists_values hb
  rcases exists_value_of_le hb (le_of_lt hlt) with ⟨c, hc⟩ | hinf
  · have hbc := (lt_iff_of_value hb hc).mp hlt
    rcases exists_value_of_le hc hle with ⟨d, hd⟩ | hinf
    · have hcd := (le_iff_of_value hc hd).mp hle
      exact (lt_iff_of_value ha hd).mpr (hab.trans_lt (hbc.trans_le hcd))
    · exact lt_infinity ha hinf
  · exact lt_infinity ha (unpacked_infinity_of_le hinf hle)

end Lowered

/-- Doubles are such an arithmetic. -/
instance : MonotoneArithmetic Float where
  Lowered := Lowered
  lowered_zero := .of_le ((le_iff_of_value value?_zero value?_zero).mpr le_rfl)
    ((le_iff_of_value value?_zero value?_zero).mpr le_rfl)
  lowered_of_le := Lowered.of_le
  lowered_add := Lowered.add
  lowered_mul hx h0 hle := .mul hx (.of_le h0 hle)
  lt_of_lowered := Lowered.lt_of_lt
  not_sqrt_lt_zero := not_sqrt_lt_zero
  not_abs_lt_zero := not_abs_lt_zero

end Double

end EndlessRemix
