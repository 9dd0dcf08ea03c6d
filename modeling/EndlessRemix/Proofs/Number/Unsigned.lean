import EndlessRemix.Proofs.Number.Reals

/-!
# Numbers without a minus sign

A zero can carry a minus sign, and a product with it then does too. Squares, their sums, roots of
these and absolute values never carry one. So a finite size that is weighted with zero leaves no
trace: the product is the weight itself, whatever the size was.
-/

namespace EndlessRemix

/-- The laws of an arithmetic in which a finite size, weighted with zero, is the weight itself. -/
class UnsignedArithmetic (R : Type) [Scalar R] where
  /-- The number carries no minus sign, not even as a zero. -/
  Unsigned : R → Prop
  unsigned_zero : Unsigned 0
  unsigned_add : ∀ {x y : R}, Unsigned x → Unsigned y → Unsigned (x + y)
  unsigned_mul_self : ∀ x : R, Unsigned (x * x)
  unsigned_sqrt : ∀ {x : R}, Unsigned x → Unsigned (Scalar.sqrt x)
  unsigned_abs : ∀ x : R, Unsigned (Scalar.abs x)
  mul_of_same_zero : ∀ {x w : R}, Unsigned x → Scalar.isFinite x = true →
    Scalar.same w 0 = true → x * w = w

open Float.Model (Format UnpackedFloat)
open Float.Model.UnpackedFloat

namespace Double

/-! ## The sign of parts -/

/-- The sign that parts carry, if they are those of a number. -/
def sign? : UnpackedFloat → Option Sign
  | .notANumber => none
  | .infinity s | .zero s | .finite s _ _ _ => some s

lemma sign?_packComponents {s t : Sign} {e : BitVec 11} {m : BitVec 52}
    (h : sign? (unpack .binary64 (packComponents .binary64 s e m)) = some t) : t = s := by
  rw [unpack_packComponents] at h
  split_ifs at h <;> cases h <;> rfl

/-- A sign that is found on what was packed was there before. -/
lemma sign?_of_packed {u : UnpackedFloat} {t : Sign} (h : sign? (unpacked (packed u)) = some t) :
    sign? u = some t := by
  change sign? (unpack .binary64 (pack .binary64 u)) = some t at h
  cases u with
  | notANumber => cases h
  | infinity s => rw [sign?_packComponents h, sign?]
  | zero s => rw [sign?_packComponents h, sign?]
  | finite s m e hm =>
    rw [pack_finite] at h
    split_ifs at h <;> rw [sign?_packComponents h, sign?]

lemma sign?_roundWithAccuracy (s : Sign) (m : ℕ) (e : ℤ) (acc : Accuracy) :
    sign? (roundWithAccuracy .binary64 s m e acc) = some s := by
  unfold roundWithAccuracy
  dsimp only
  split_ifs <;> rfl

/-! ## Sizes -/

/-- The parts carry no minus sign. -/
def Unsigned (u : UnpackedFloat) : Prop := sign? u ≠ some .negative

lemma Unsigned.packed {u : UnpackedFloat} (h : Unsigned u) : Unsigned (unpacked (packed u)) :=
  mt sign?_of_packed h

lemma unsigned_of_sign {u : UnpackedFloat} (h : sign? u = some .positive) : Unsigned u := by
  rw [Unsigned, h]
  exact fun h => by cases h

/-- A sign that they carry is the other one. -/
lemma Unsigned.positive {u : UnpackedFloat} {s : Sign} (h : Unsigned u) (hs : sign? u = some s) :
    s = .positive := by
  cases s with
  | negative => exact absurd hs h
  | positive => rfl

lemma unsigned_roundWithAccuracy (m : ℕ) (e : ℤ) (acc : Accuracy) :
    Unsigned (roundWithAccuracy .binary64 .positive m e acc) :=
  unsigned_of_sign (sign?_roundWithAccuracy _ _ _ _)

lemma unsigned_notANumber : Unsigned .notANumber := fun h => by cases h

section

variable {u v : UnpackedFloat}

lemma Unsigned.sqrt (h : Unsigned u) : Unsigned (u.sqrt .binary64) := by
  cases u with
  | notANumber => exact unsigned_notANumber
  | zero s => exact h
  | infinity s => cases s with
    | negative => exact unsigned_notANumber
    | positive => exact h
  | finite s m e hm => cases s with
    | negative => exact unsigned_notANumber
    | positive => exact unsigned_roundWithAccuracy _ _ _

lemma unsigned_abs (u : UnpackedFloat) : Unsigned u.abs := by
  cases u with
  | notANumber => exact unsigned_notANumber
  | _ => exact unsigned_of_sign rfl

/-- A square has the product of equal signs. -/
lemma unsigned_mul_self (u : UnpackedFloat) : Unsigned (mul .binary64 u u) := by
  cases u with
  | notANumber => exact unsigned_notANumber
  | zero s => cases s <;> exact unsigned_of_sign rfl
  | infinity s => cases s <;> exact unsigned_of_sign rfl
  | finite s m e hm => cases s <;> exact unsigned_roundWithAccuracy _ _ _

lemma Unsigned.add (hu : Unsigned u) (hv : Unsigned v) : Unsigned (add .binary64 u v) := by
  cases u with
  | notANumber => cases v <;> exact unsigned_notANumber
  | infinity s =>
    obtain rfl := hu.positive rfl
    cases v with
    | infinity t =>
      obtain rfl := hv.positive rfl
      exact hv
    | notANumber => exact unsigned_notANumber
    | _ => exact hu
  | zero s =>
    obtain rfl := hu.positive rfl
    cases v with
    | zero t =>
      obtain rfl := hv.positive rfl
      exact hv
    | _ => exact hv
  | finite s m e hm =>
    obtain rfl := hu.positive rfl
    cases v with
    | finite t n f hn =>
      obtain rfl := hv.positive rfl
      obtain ⟨_, _, _, hsum⟩ := exists_add_positive e f hm hn
      rw [hsum]
      exact unsigned_roundWithAccuracy _ _ _
    | zero t => exact hu
    | _ => exact hv

end

/-! ## Weights of zero -/

/-- Only the two zeros are neither below nor above zero. -/
lemma exists_zero_of_same {w : Float} (h : Scalar.same w 0 = true) :
    ∃ s, unpacked w = .zero s := by
  have hzero : unpacked 0 = .zero .positive := rfl
  obtain ⟨hle, hge⟩ := Bool.and_eq_true_iff.mp h
  have hle' := of_decide_eq_true hle
  have hge' := of_decide_eq_true hge
  rw [le_iff, hzero] at hle' hge'
  cases hw : unpacked w with
  | zero s => exact ⟨s, rfl⟩
  | notANumber => rw [hw] at hle'; cases hle'
  | infinity s =>
    rw [hw] at hle' hge'
    cases s with
    | negative => cases hge'
    | positive => cases hle'
  | finite s m e hm =>
    rw [hw] at hle' hge'
    cases s with
    | negative => cases hge'
    | positive => cases hle'

instance : UnsignedArithmetic Float where
  Unsigned x := Unsigned (unpacked x)
  unsigned_zero := unsigned_of_sign rfl
  unsigned_add hx hy := (hx.add hy).packed
  unsigned_mul_self x := (unsigned_mul_self (unpacked x)).packed
  unsigned_sqrt hx := hx.sqrt.packed
  unsigned_abs x := (unsigned_abs (unpacked x)).packed
  mul_of_same_zero {x w} hx hfinite hw := by
    obtain ⟨s, hs⟩ := exists_zero_of_same hw
    obtain ⟨q, hq⟩ := (isFinite_iff x).mp hfinite
    -- the zero keeps its sign, because the other factor has none
    have hmul : mul .binary64 (unpacked x) (.zero s) = .zero s := by
      unfold value? at hq
      generalize unpacked x = u at *
      cases u with
      | notANumber => cases hq
      | infinity t => cases hq
      | zero t =>
        obtain rfl := Unsigned.positive hx rfl
        cases s <;> rfl
      | finite t m e hm =>
        obtain rfl := Unsigned.positive hx rfl
        cases s <;> rfl
    show packed (mul .binary64 (unpacked x) (unpacked w)) = w
    rw [hs, hmul, ← hs, packed_unpacked]

end Double

/-- In exact arithmetic there is one zero only. -/
instance : UnsignedArithmetic Exact where
  Unsigned _ := True
  unsigned_zero := trivial
  unsigned_add _ _ := trivial
  unsigned_mul_self _ := trivial
  unsigned_sqrt _ := trivial
  unsigned_abs _ := trivial
  mul_of_same_zero {x w} _ _ hw := by
    apply Exact.ext
    show x.real * w.real = w.real
    rw [Exact.real_eq_zero_of_same hw, mul_zero]

end EndlessRemix
