import EndlessRemix.Proofs.Number.Packing

/-!
# Differences in both directions

A distance between beats is measured once and used in both directions, which rests on two laws of
the arithmetic: exchanged operands give a difference of the same size and of the same square.
Doubles obey them although they are rounded, because rounding does not look at the sign.
-/

namespace EndlessRemix

/-- The laws of an arithmetic in which differences measure the same in both directions. -/
class SymmetricDifference (R : Type) [Scalar R] : Prop where
  abs_sub_comm : ∀ x y : R, Scalar.abs (x - y) = Scalar.abs (y - x)
  sq_sub_comm : ∀ x y : R, (x - y) * (x - y) = (y - x) * (y - x)

open Float.Model (Format UnpackedFloat)
open Float.Model.UnpackedFloat

namespace Double

/-! ## Sizes -/

lemma abs_unpack_packComponents (s t : Sign) (e : BitVec 11) (m : BitVec 52) :
    (unpack .binary64 (packComponents .binary64 s e m)).abs
      = (unpack .binary64 (packComponents .binary64 t e m)).abs := by
  rw [unpack_packComponents, unpack_packComponents]
  split_ifs <;> rfl

/-- The size of what is packed depends on the size of the parts only. -/
theorem abs_unpack_pack (u : UnpackedFloat) :
    (unpack .binary64 (pack .binary64 u)).abs = (unpack .binary64 (pack .binary64 u.abs)).abs := by
  cases u with
  | infinity s => exact abs_unpack_packComponents _ _ _ _
  | notANumber => rfl
  | zero s => exact abs_unpack_packComponents _ _ _ _
  | finite s m e hm =>
    show (unpack .binary64 (pack .binary64 (.finite s m e hm))).abs
      = (unpack .binary64 (pack .binary64 (.finite .positive m e hm))).abs
    rw [pack_finite, pack_finite]
    split_ifs <;> exact abs_unpack_packComponents _ _ _ _

lemma abs_round (f : Format) (s t : Sign) (m : ℕ) (e : ℤ) :
    (Float.Model.UnpackedFloat.round f s m e).abs
      = (Float.Model.UnpackedFloat.round f t m e).abs := by
  unfold Float.Model.UnpackedFloat.round roundWithAccuracy
  dsimp only
  split_ifs <;> rfl

/-- Rounding does not look at the sign. -/
lemma abs_normalize_neg (f : Format) (m : ℤ) (e : ℤ) (s : Sign) :
    (Float.Model.UnpackedFloat.normalize f (-m) e s).abs
      = (Float.Model.UnpackedFloat.normalize f m e s).abs := by
  unfold Float.Model.UnpackedFloat.normalize
  rcases lt_trichotomy m 0 with h | rfl | h
  · have h' : 0 < -m := by omega
    rw [compare_gt_iff_gt.mpr h', compare_lt_iff_lt.mpr h]
    exact abs_round f _ _ _ _
  · rfl
  · have h' : -m < 0 := by omega
    rw [compare_lt_iff_lt.mpr h', compare_gt_iff_gt.mpr h]
    simp only [neg_neg]
    exact abs_round f _ _ _ _

/-- Exchanged parts have a difference of the same size. -/
theorem abs_sub_parts (f : Format) (u v : UnpackedFloat) : (sub f u v).abs = (sub f v u).abs := by
  cases u with
  | notANumber => cases v <;> rfl
  | infinity s => cases v with
    | infinity t => cases s <;> cases t <;> rfl
    | _ => rfl
  | zero s => cases v with
    | zero t => cases s <;> cases t <;> rfl
    | _ => rfl
  | finite s m e hm => cases v with
    | finite t n k hn =>
      simp only [sub]
      rw [min_comm k e, ← abs_normalize_neg, neg_sub]
    | _ => rfl

/-- The square of a number is the square of its size. -/
lemma mul_self_abs (f : Format) (u : UnpackedFloat) : mul f u u = mul f u.abs u.abs := by
  cases u with
  | notANumber => rfl
  | infinity s => cases s <;> rfl
  | zero s => cases s <;> rfl
  | finite s m e hm => cases s <;> rfl

/-! ## Doubles -/

/-- Exchanged doubles have a difference of the same size. -/
theorem abs_unpacked_sub (x y : Float) : (unpacked (x - y)).abs = (unpacked (y - x)).abs := by
  calc (unpacked (x - y)).abs
      = (unpack .binary64 (pack .binary64
          (sub .binary64 (unpacked x) (unpacked y)).abs)).abs := abs_unpack_pack _
    _ = (unpack .binary64 (pack .binary64
          (sub .binary64 (unpacked y) (unpacked x)).abs)).abs := by rw [abs_sub_parts]
    _ = (unpacked (y - x)).abs := (abs_unpack_pack _).symm

instance : SymmetricDifference Float where
  abs_sub_comm x y := by
    show packed (unpacked (x - y)).abs = packed (unpacked (y - x)).abs
    rw [abs_unpacked_sub]
  sq_sub_comm x y := by
    show packed (mul .binary64 (unpacked (x - y)) (unpacked (x - y)))
      = packed (mul .binary64 (unpacked (y - x)) (unpacked (y - x)))
    rw [mul_self_abs, abs_unpacked_sub, ← mul_self_abs]

end Double

end EndlessRemix
