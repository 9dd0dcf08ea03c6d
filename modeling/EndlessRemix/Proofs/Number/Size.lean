import EndlessRemix.Proofs.Number.Extremes
import EndlessRemix.Proofs.Number.Remainder
import EndlessRemix.Proofs.Number.Symmetry
import EndlessRemix.Proofs.Number.Unsigned

/-!
# Sizes

Differences are measured by their absolute values and their squares. With doubles these are at least
zero, also where a difference is too large and becomes infinite, and so are their roots and sums.
They stay so when they are weighted, unless what is infinite is weighted with zero. A zero that is
added to a sum of squares, or stands for an entry that is missing, changes nothing.
-/

namespace EndlessRemix

variable {R : Type} [Scalar R]

/-- What a sum of squares can be while it is added up, from zero on. -/
inductive SumOfSquares : R → Prop
  | zero : SumOfSquares 0
  | add {sum : R} (hsum : SumOfSquares sum) (x : R) : SumOfSquares (sum + x * x)

/-- The laws of an arithmetic in which zeros do not matter: added to a sum of squares, and as what
another number is subtracted from, as far as the square goes. -/
class NeutralZero (R : Type) [Scalar R] : Prop where
  add_zero : ∀ {sum : R}, SumOfSquares sum → sum + 0 = sum
  sq_zero : ((0 : R) - 0) * (0 - 0) = 0
  sq_zero_sub : ∀ {z : R} (x : R), Scalar.same z 0 = true → (z - x) * (z - x) = (0 - x) * (0 - x)

/-- Squares carry no minus sign, and neither do their sums. -/
lemma SumOfSquares.unsigned [UnsignedArithmetic R] {sum : R} (h : SumOfSquares sum) :
    UnsignedArithmetic.Unsigned sum := by
  induction h with
  | zero => exact UnsignedArithmetic.unsigned_zero
  | add _ x ih => exact UnsignedArithmetic.unsigned_add ih (UnsignedArithmetic.unsigned_mul_self x)

open Float.Model (Format UnpackedFloat)
open Float.Model.UnpackedFloat

namespace Double

/-! ## Zeros -/

lemma abs_sub_zero_parts (s t : Sign) (v : UnpackedFloat) :
    (sub .binary64 (.zero s) v).abs = (sub .binary64 (.zero t) v).abs := by
  cases v with
  | zero r => cases s <;> cases t <;> cases r <;> rfl
  | _ => rfl

instance : NeutralZero Float where
  add_zero {s} hs := by
    have hadd : (unpacked s).add .binary64 (unpacked 0) = unpacked s := by
      have hs : Unsigned (unpacked s) := hs.unsigned
      have hzero : unpacked 0 = .zero .positive := rfl
      rw [hzero]
      cases hu : unpacked s with
      | zero t =>
        rw [hu] at hs
        cases t with
        | positive => rfl
        | negative => exact absurd rfl hs
      | _ => rfl
    show packed ((unpacked s).add .binary64 (unpacked 0)) = s
    rw [hadd, packed_unpacked]
  sq_zero := rfl
  sq_zero_sub {z} x hz := by
    obtain ⟨s, hs⟩ := exists_zero_of_same hz
    have habs : (unpacked (z - x)).abs = (unpacked (0 - x)).abs := by
      calc (unpacked (z - x)).abs
          = (unpack .binary64 (pack .binary64
              (sub .binary64 (unpacked z) (unpacked x)).abs)).abs := abs_unpack_pack _
        _ = (unpack .binary64 (pack .binary64
              (sub .binary64 (unpacked 0) (unpacked x)).abs)).abs := by
            rw [hs, abs_sub_zero_parts s .positive]
            rfl
        _ = (unpacked (0 - x)).abs := (abs_unpack_pack _).symm
    show packed (mul .binary64 (unpacked (z - x)) (unpacked (z - x)))
      = packed (mul .binary64 (unpacked (0 - x)) (unpacked (0 - x)))
    rw [mul_self_abs, habs, ← mul_self_abs]

/-! ## Numbers that are at least zero -/

section

variable {x y w : Float} {a b c : ℚ}

lemma zero_le_iff : 0 ≤ x ↔ AtLeast x 0 := by
  constructor
  · intro h
    rcases exists_value_of_le value?_zero h with ⟨a, ha⟩ | hinf
    · exact .inl ⟨a, ha, (le_iff_of_value value?_zero ha).mp h⟩
    · exact .inr hinf
  · rintro (⟨a, ha, h0⟩ | hinf)
    · exact (le_iff_of_value value?_zero ha).mpr h0
    · exact le_infinity nofun hinf

lemma not_lt_zero_of_le (h : 0 ≤ x) : ¬x < 0 := by
  rcases zero_le_iff.mp h with ⟨a, ha, h0⟩ | hinf
  · rw [lt_iff_of_value ha value?_zero]
    exact not_lt.mpr h0
  · exact not_infinity_lt hinf

lemma zero_le_of_not_lt (h : ¬x < 0) (hx : unpacked x ≠ .notANumber) : 0 ≤ x :=
  zero_le_iff.mpr ((atLeast_zero_or h).resolve_left hx)

lemma ne_notANumber_of_zero_le (h : 0 ≤ x) : unpacked x ≠ .notANumber := by
  rcases zero_le_iff.mp h with ⟨a, ha, -⟩ | hinf
  · intro hnan
    rw [value?, hnan] at ha
    cases ha
  · rw [hinf]
    intro hnan
    cases hnan

lemma unpacked_add_notANumber (x : Float) (hy : unpacked y = .notANumber) :
    unpacked (x + y) = .notANumber := by
  refine unpacked_add trivial ?_
  rw [hy]
  cases unpacked x <;> rfl

/-- A sum is at least zero if both of its parts are. -/
theorem zero_le_add_iff (hx : ¬x < 0) (hy : ¬y < 0) : 0 ≤ x + y ↔ 0 ≤ x ∧ 0 ≤ y := by
  constructor
  · intro h
    have hsum := ne_notANumber_of_zero_le h
    exact ⟨zero_le_of_not_lt hx fun hnan => hsum (unpacked_notANumber_add hnan y),
      zero_le_of_not_lt hy fun hnan => hsum (unpacked_add_notANumber x hnan)⟩
  · rintro ⟨hx, hy⟩
    rw [zero_le_iff] at hx hy ⊢
    rcases hy with ⟨b, hb, hb0⟩ | hinf
    · rcases hx with ⟨a, ha, ha0⟩ | hinf
      · exact atLeast_add ha hb value?_zero (add_nonneg ha0 hb0)
      · exact .inr (unpacked_infinity_add hinf hb)
    · exact .inr (unpacked_add_infinity hx hinf)

/-- A weighted size is at least zero, unless it is infinite and its weight is zero. -/
theorem zero_le_mul_iff (hx : 0 ≤ x) (hw : value? w = some c) (hc : 0 ≤ c) :
    0 ≤ x * w ↔ (Scalar.same w 0 = true → Scalar.isFinite x = true) := by
  rw [same_iff_of_value hw value?_zero, zero_le_iff]
  rcases zero_le_iff.mp hx with ⟨a, ha, ha0⟩ | hinf
  · exact iff_of_true (mul_nonneg_cases ha ha0 hw hc) fun _ => (isFinite_iff x).mpr ⟨a, ha⟩
  · have hvalue : value? x = none := by rw [value?, hinf]; rfl
    have hfinite : ¬Scalar.isFinite x = true := by
      rw [isFinite_iff, hvalue]
      rintro ⟨q, hq⟩
      cases hq
    rcases hc.eq_or_lt with rfl | hpos
    · refine iff_of_false ?_ fun h => hfinite (h rfl)
      obtain ⟨s, hs⟩ := exists_zero_of_same ((same_iff_of_value hw value?_zero).mpr rfl)
      rw [← zero_le_iff]
      intro h
      refine ne_notANumber_of_zero_le h ?_
      have hmul : (unpacked x).mul .binary64 (unpacked w) = .notANumber := by
        rw [hinf, hs]
        rfl
      show unpacked (packed ((unpacked x).mul .binary64 (unpacked w))) = _
      rw [hmul]
      rfl
    · exact iff_of_true (.inr (unpacked_mul_infinity hinf hw hpos)) fun h => absurd h hpos.ne'

lemma unpacked_abs (x : Float) : unpacked (Scalar.abs x) = (unpacked x).abs := by
  have hc := canonical_unpacked x
  show unpacked (packed (unpacked x).abs) = _
  refine unpacked_packed ?_
  cases hu : unpacked x with
  | finite s m e hm =>
    rw [hu] at hc
    exact hc
  | _ => trivial

/-- An absolute value is at least zero, if it is one of a number. -/
lemma zero_le_abs (hx : unpacked x ≠ .notANumber) : 0 ≤ Scalar.abs x := by
  refine zero_le_of_not_lt (not_abs_lt_zero x) ?_
  rw [unpacked_abs]
  cases hu : unpacked x with
  | notANumber => exact absurd hu hx
  | _ => exact nofun

lemma zero_le_mul_self (h : 0 ≤ x) : 0 ≤ x * x := by
  rw [zero_le_iff]
  rcases zero_le_iff.mp h with ⟨a, ha, h0⟩ | hinf
  · exact mul_nonneg_cases ha h0 ha h0
  · right
    show unpacked (packed ((unpacked x).mul .binary64 (unpacked x))) = _
    rw [hinf]
    rfl

/-- A difference is the sum with the negated number. -/
lemma sub_eq_add_neg (x y : Float) : x - y = x + -y := by
  have hneg : unpacked (-y) = (unpacked y).neg := unpacked_packed (canonical_neg (canonical_unpacked y))
  show packed ((unpacked x).sub .binary64 (unpacked y))
    = packed ((unpacked x).add .binary64 (unpacked (-y)))
  rw [sub_eq_add_neg_parts, hneg]

/-- Of two finite doubles, one minus the other is at least zero. -/
lemma zero_le_sub_or (hx : value? x = some a) (hy : value? y = some b) :
    0 ≤ x - y ∨ 0 ≤ y - x := by
  rw [zero_le_iff, zero_le_iff, sub_eq_add_neg, sub_eq_add_neg]
  rcases le_total b a with h | h
  · exact .inl (atLeast_add hx (value?_neg hy) value?_zero (by linarith))
  · exact .inr (atLeast_add hy (value?_neg hx) value?_zero (by linarith))

/-- What finite doubles differ by is at least zero, infinite or not. -/
lemma zero_le_abs_sub (hx : value? x = some a) (hy : value? y = some b) :
    0 ≤ Scalar.abs (x - y) := by
  rcases zero_le_sub_or hx hy with h | h
  · exact zero_le_abs (ne_notANumber_of_zero_le h)
  · rw [SymmetricDifference.abs_sub_comm]
    exact zero_le_abs (ne_notANumber_of_zero_le h)

/-- And so is the square of it. -/
lemma zero_le_sq_sub (hx : value? x = some a) (hy : value? y = some b) :
    0 ≤ (x - y) * (x - y) := by
  rcases zero_le_sub_or hx hy with h | h
  · exact zero_le_mul_self h
  · rw [SymmetricDifference.sq_sub_comm]
    exact zero_le_mul_self h

/-- A root of a number at least zero is at least zero. -/
lemma zero_le_sqrt (h : 0 ≤ x) : 0 ≤ Scalar.sqrt x := by
  have hx := not_lt_zero_of_le h
  have hnan := ne_notANumber_of_zero_le h
  rw [lt_zero_iff] at hx
  rw [zero_le_iff]
  show AtLeast (packed ((unpacked x).sqrt .binary64)) 0
  cases hu : unpacked x with
  | notANumber => exact absurd hu hnan
  | zero s => exact .inl ⟨0, value?_packed_zero s, le_rfl⟩
  | infinity s =>
    obtain rfl := positive_of_infinity (hu ▸ hx)
    exact .inr rfl
  | finite s m e hm =>
    obtain rfl := positive_of_finite (hu ▸ hx)
    exact nonneg_roundWithAccuracy _ _ _

/-! ## Differences that are zero -/

lemma value?_abs_zero (hx : value? x = some 0) : value? (Scalar.abs x) = some 0 := by
  obtain ⟨s, hs⟩ := exists_zero_of_same ((same_iff_of_value hx value?_zero).mpr rfl)
  rw [value?, unpacked_abs, hs]
  rfl

lemma value?_sqrt_zero (hx : value? x = some 0) : value? (Scalar.sqrt x) = some 0 := by
  obtain ⟨s, hs⟩ := exists_zero_of_same ((same_iff_of_value hx value?_zero).mpr rfl)
  show value? (packed ((unpacked x).sqrt .binary64)) = _
  rw [hs]
  exact value?_packed_zero s

lemma value?_zero_mul (hx : value? x = some 0) (hy : value? y = some b) (hb : 0 ≤ b) :
    value? (x * y) = some 0 := by
  have hrounded := RoundedFrom.mul hx le_rfl hy hb
  rw [zero_mul] at hrounded
  exact hrounded.eq_zero

lemma value?_add_zero (hx : value? x = some 0) (hy : value? y = some 0) :
    value? (x + y) = some 0 := by
  have hsum := value?_add (k := 0) hx hy (by norm_num) (by norm_num)
  rwa [Nat.cast_zero] at hsum

lemma value?_sub_eq (hx : value? x = some a) (hy : value? y = some a) : value? (x - y) = some 0 := by
  have hdifference := value?_sub (k := 0) hx hy (by norm_num) (by norm_num)
  rwa [Nat.cast_zero] at hdifference

end

end Double

/-! ## Exact arithmetic -/

instance : SymmetricDifference Exact where
  abs_sub_comm x y := Exact.ext (abs_sub_comm x.real y.real)
  sq_sub_comm x y := Exact.ext (show (x.real - y.real) * (x.real - y.real)
    = (y.real - x.real) * (y.real - x.real) by ring)

instance : NeutralZero Exact where
  add_zero {s} _ := Exact.ext (show s.real + ((0 : ℕ) : ℝ) = s.real by simp)
  sq_zero := Exact.ext (show (((0 : ℕ) : ℝ) - ((0 : ℕ) : ℝ)) * (((0 : ℕ) : ℝ) - ((0 : ℕ) : ℝ))
    = ((0 : ℕ) : ℝ) by simp)
  sq_zero_sub {z} x hz := by
    have hzero : z = 0 := Exact.ext ((Exact.real_eq_zero_of_same hz).trans Nat.cast_zero.symm)
    rw [hzero]

end EndlessRemix
