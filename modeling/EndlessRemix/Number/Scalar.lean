import EndlessRemix.Number.Whole

/-!
# `Scalar`: the arithmetic that the remix computes in

Times, features, distances and probabilities are scalars. The definitions of this library are
written once over this class: they run on double-precision numbers (`EndlessRemix.Number.Double`)
and can be read over any other arithmetic, exact or rounded, that provides the same operations.
No law is part of the class, because a rounded arithmetic keeps few of them; a theorem names the
laws it uses.
-/

namespace EndlessRemix

/-- Arithmetic, order and rounding of the numbers that describe a song. -/
class Scalar (R : Type) extends Add R, Sub R, Mul R, Div R, Neg R, LT R, LE R, Min R, Max R,
    OfScientific R where
  ofNat : Nat → R
  decideLt : DecidableLT R
  decideLe : DecidableLE R
  abs : R → R
  sqrt : R → R
  /-- The remainder of truncated division. -/
  remainder : R → R → R
  /-- The whole number at or below. -/
  floor : R → R
  /-- The nearest whole number; halfway between two, the upper one. -/
  round : R → R
  /-- The integer next to the number on the side of zero. -/
  whole : R → Whole
  /-- The scalar nearest to an exact number. -/
  ofDatum : Datum → R
  isFinite : R → Bool
  /-- Rounding to the precision in which audio samples are kept. -/
  stored : R → R

instance Scalar.instDecidableLt {R : Type} [Scalar R] (x y : R) : Decidable (x < y) :=
  Scalar.decideLt x y

instance Scalar.instDecidableLe {R : Type} [Scalar R] (x y : R) : Decidable (x ≤ y) :=
  Scalar.decideLe x y

instance (priority := low) Scalar.instOfNat {R : Type} [Scalar R] (n : Nat) : OfNat R n :=
  ⟨Scalar.ofNat n⟩

namespace Scalar

variable {R : Type} [Scalar R]

/-- The scalar nearest to a whole number. -/
def ofWhole (w : Whole) : R := ofDatum w.datum

/-- What is no number. -/
def noNumber : R := ofDatum .notANumber

/-- Neither number is below the other and both can be compared. -/
def same (x y : R) : Bool := decide (x ≤ y) && decide (y ≤ x)

/-- The whole part of a number. -/
def truncate (x : R) : R := ofWhole (whole x)

/-- The whole number at or above. -/
def ceiling (x : R) : R := -floor (-x)

/-- The number has no fractional part. -/
def isWhole (x : R) : Bool := isFinite x && same (floor x) x

/-- The sum of a list, from the front. -/
def sum (xs : List R) : R := xs.foldl (· + ·) 0

end Scalar

/-- The transcendental functions that sound analysis needs beside the arithmetic. -/
class Analytic (R : Type) extends Scalar R where
  pi : R
  cos : R → R
  sin : R → R
  log : R → R
  log2 : R → R
  log10 : R → R
  /-- The length of the vector with these two coordinates. -/
  hypot : R → R → R

end EndlessRemix
