import EndlessRemix.Proofs.Number.Accuracy
import EndlessRemix.Proofs.Number.Monotone

/-!
# Exact arithmetic

The real numbers as an arithmetic of their own, in which nothing is rounded. It has no infinities
and everything in it is a number, so where doubles would leave the numbers a zero stands. What is
proved of every arithmetic that rounds is true of this one. The same numbers are an arithmetic also
if each sum and each product is rounded, in whatever way.
-/

namespace EndlessRemix

/-- A number that is computed with exactly. -/
@[ext] structure Exact where
  real : ℝ

namespace Exact

/-- The value of a finite datum. -/
noncomputable def ofDatum : Datum → Exact
  | .finite negative mantissa exponent =>
    ⟨((Datum.signedMantissa negative mantissa * 2 ^ exponent : ℚ) : ℝ)⟩
  | .infinite _ | .notANumber => ⟨0⟩

/-- The integer next to a number on the side of zero. -/
noncomputable def truncate (x : Exact) : ℤ := if 0 ≤ x.real then ⌊x.real⌋ else ⌈x.real⌉

noncomputable instance : Scalar Exact where
  add x y := ⟨x.real + y.real⟩
  sub x y := ⟨x.real - y.real⟩
  mul x y := ⟨x.real * y.real⟩
  div x y := ⟨x.real / y.real⟩
  neg x := ⟨-x.real⟩
  lt x y := x.real < y.real
  le x y := x.real ≤ y.real
  min x y := ⟨Min.min x.real y.real⟩
  max x y := ⟨Max.max x.real y.real⟩
  ofScientific m s e := ⟨OfScientific.ofScientific m s e⟩
  ofNat n := ⟨n⟩
  decideLt _ _ := Classical.propDecidable _
  decideLe _ _ := Classical.propDecidable _
  abs x := ⟨|x.real|⟩
  sqrt x := ⟨Real.sqrt x.real⟩
  remainder x y := ⟨x.real - y.real * truncate ⟨x.real / y.real⟩⟩
  floor x := ⟨⌊x.real⌋⟩
  round x := ⟨round x.real⟩
  whole x := .int x.truncate
  ofDatum := ofDatum
  isFinite _ := true
  stored x := x

noncomputable instance : Analytic Exact where
  pi := ⟨Real.pi⟩
  cos x := ⟨Real.cos x.real⟩
  sin x := ⟨Real.sin x.real⟩
  log x := ⟨Real.log x.real⟩
  log2 x := ⟨Real.logb (2 : ℕ) x.real⟩
  log10 x := ⟨Real.logb (10 : ℕ) x.real⟩
  hypot x y := ⟨Real.sqrt (x.real ^ 2 + y.real ^ 2)⟩

noncomputable instance : RoundedArithmetic Exact where
  real? x := some x.real
  isFinite_iff x := iff_of_true rfl ⟨x.real, rfl⟩
  lt_iff hx hy := by
    rw [← Option.some.inj hx, ← Option.some.inj hy]
    rfl
  le_iff hx hy := by
    rw [← Option.some.inj hx, ← Option.some.inj hy]
    rfl
  real?_ofNat _ := rfl
  real?_min hx hy := by
    rw [← Option.some.inj hx, ← Option.some.inj hy]
    rfl
  real?_max hx hy := by
    rw [← Option.some.inj hx, ← Option.some.inj hy]
    rfl
  real?_round hx := by
    rw [← Option.some.inj hx]
    rfl
  near_add hx hy _ := by
    rw [← Option.some.inj hx, ← Option.some.inj hy]
    exact ⟨_, rfl, near_refl _⟩
  near_mul hx hy _ := by
    rw [← Option.some.inj hx, ← Option.some.inj hy]
    exact ⟨_, rfl, near_refl _⟩
  near_div hx hy _ _ := by
    rw [← Option.some.inj hx, ← Option.some.inj hy]
    exact ⟨_, rfl, near_refl _⟩
  near_billionth := by
    refine ⟨(1e-9 : ℝ), rfl, ?_⟩
    have h : (1e-9 : ℝ) = ((1 / 10 ^ 9 : ℚ) : ℝ) := by norm_num
    rw [h]
    exact near_refl _

/-- The real number at a position, and zero beyond the end. -/
def realAt (xs : Array Exact) (i : ℕ) : ℝ := (xs[i]?.getD ⟨0⟩).real

lemma realAt_of_lt {xs : Array Exact} {i : ℕ} (hi : i < xs.size) : realAt xs i = xs[i].real := by
  rw [realAt, Array.getElem?_eq_getElem hi, Option.getD_some]

lemma realAt_nonneg {xs : Array Exact} (hxs : ∀ x ∈ xs, 0 ≤ x.real) (i : ℕ) : 0 ≤ realAt xs i := by
  by_cases hi : i < xs.size
  · rw [realAt_of_lt hi]
    exact hxs _ (Array.getElem_mem hi)
  · rw [realAt, Array.getElem?_eq_none (not_lt.mp hi), Option.getD_none]

/-- A sum from the front is a sum. -/
lemma real_sum (xs : List Exact) : (Scalar.sum xs).real = (xs.map real).sum := by
  have hfoldl (x : Exact) : (xs.foldl (· + ·) x).real = x.real + (xs.map real).sum := by
    induction xs generalizing x with
    | nil => simp
    | cons y xs ih =>
      rw [List.foldl_cons, ih, List.map_cons, List.sum_cons, ← add_assoc]
      rfl
  have hzero : (0 : Exact).real = 0 := Nat.cast_zero
  rw [Scalar.sum, hfoldl, hzero, zero_add]

/-- Only zero compares the same as zero. -/
lemma real_eq_zero_of_same {x : Exact} (h : Scalar.same x 0 = true) : x.real = 0 := by
  obtain ⟨hle, hge⟩ := Bool.and_eq_true_iff.mp h
  have hle' : x.real ≤ ((0 : ℕ) : ℝ) := of_decide_eq_true hle
  have hge' : ((0 : ℕ) : ℝ) ≤ x.real := of_decide_eq_true hge
  rw [Nat.cast_zero] at hle' hge'
  exact le_antisymm hle' hge'

/-- What is not below zero, as a real number. -/
lemma nonneg_of_not_lt {x : Exact} (h : ¬x < 0) : 0 ≤ x.real := by
  rw [← Nat.cast_zero]
  exact not_lt.mp h

/-- A real number that is not below zero. -/
lemma not_lt_zero {x : ℝ} (h : 0 ≤ x) : ¬(⟨x⟩ : Exact) < 0 := by
  rw [← Nat.cast_zero] at h
  exact not_lt.mpr h

instance : MonotoneArithmetic Exact where
  Lowered x' x := x'.real ≤ x.real
  lowered_zero := le_rfl
  lowered_of_le _ hle := hle
  lowered_add := add_le_add
  lowered_mul hx _ hle := mul_le_mul_of_nonneg_left hle (nonneg_of_not_lt hx)
  lt_of_lowered hle hlt hle' := (hle.trans_lt hlt).trans_le hle'
  not_sqrt_lt_zero x := not_lt_zero (Real.sqrt_nonneg x.real)
  not_abs_lt_zero x := not_lt_zero (abs_nonneg x.real)

/-! ## Rounded sums and products -/

/-- Numbers whose sums and differences are rounded in one way, and products in another. Both ways
keep order. -/
def RoundedBy (_sum _product : ℝ →o ℝ) : Type := Exact

variable {sum product : ℝ →o ℝ}

noncomputable instance : Scalar (RoundedBy sum product) :=
  { (inferInstance : Scalar Exact) with
    add := fun (x y : Exact) => (⟨sum (x.real + y.real)⟩ : Exact)
    sub := fun (x y : Exact) => (⟨sum (x.real - y.real)⟩ : Exact)
    mul := fun (x y : Exact) => (⟨product (x.real * y.real)⟩ : Exact) }

instance : MonotoneArithmetic (RoundedBy sum product) where
  Lowered x' x := Exact.real x' ≤ Exact.real x
  lowered_zero := le_rfl
  lowered_of_le _ hle := hle
  lowered_add hx hy := sum.monotone (add_le_add hx hy)
  lowered_mul hx _ hle :=
    product.monotone (mul_le_mul_of_nonneg_left hle (nonneg_of_not_lt hx))
  lt_of_lowered hle hlt hle' := (hle.trans_lt hlt).trans_le hle'
  not_sqrt_lt_zero x := not_lt_zero (Real.sqrt_nonneg (Exact.real x))
  not_abs_lt_zero x := not_lt_zero (abs_nonneg (Exact.real x))

end Exact

end EndlessRemix
