import EndlessRemix.Number.Scalar

/-!
# Double precision

The `Scalar` on which the program runs: `Float`, read through the exact value of its bits wherever
a number is rounded to a whole one, divided with remainder, or stored as a sample.
-/

namespace EndlessRemix

namespace Double

/-- The number that a double stands for. -/
def datum (x : Float) : Datum := WordFormat.double.decode x.toBits.toNat

/-- The double nearest to a datum. -/
def ofDatum (d : Datum) : Float := Float.ofBits (WordFormat.double.encode d).toUInt64

/-- Truncation toward zero. -/
def whole (x : Float) : Whole := (datum x).truncate

/-- The smaller of two doubles: no number if either is none, and −0 below 0. -/
def min (x y : Float) : Float :=
  if x < y then x else if y < x then y
  -- equal numbers differ in the sign of zero at most, and −0 has the sign bit
  else if x == y then Float.ofBits (x.toBits ||| y.toBits)
  -- one of the two is no number, and so is the sum
  else x + y

/-- The larger of two doubles: no number if either is none, and −0 below 0. -/
def max (x y : Float) : Float :=
  if x < y then y else if y < x then x
  else if x == y then Float.ofBits (x.toBits &&& y.toBits)
  else x + y

/-- The value of a double in single precision, as a double again. -/
def stored (x : Float) : Float :=
  ofDatum (WordFormat.single.decode (WordFormat.single.encode (datum x)))

instance : Scalar Float where
  add := Float.add
  sub := Float.sub
  mul := Float.mul
  div := Float.div
  neg := Float.neg
  lt := (· < ·)
  le := (· ≤ ·)
  min := min
  max := max
  ofScientific := OfScientific.ofScientific
  ofNat := Float.ofNat
  decideLt := fun _ _ => inferInstance
  decideLe := fun _ _ => inferInstance
  abs := Float.abs
  sqrt := Float.sqrt
  remainder x y := ofDatum ((datum x).remainder (datum y))
  floor x := ofDatum (datum x).floor.datum
  round x := ofDatum (datum x).round.datum
  whole := whole
  ofDatum := ofDatum
  isFinite x := x.isFinite
  stored := stored

/-- The circle constant. -/
def pi : Float := 3.141592653589793

/-- The length of a vector: infinite as soon as one coordinate is, whatever the other. The
coordinates are measured by the larger of them, so that no square leaves the range of doubles. -/
def hypot (x y : Float) : Float :=
  let largest := max x.abs y.abs
  if x.isInf || y.isInf then ofDatum (.infinite false)
  -- without this the null vector would be measured by zero
  else if largest == 0 then 0
  else
    let a := x / largest
    let b := y / largest
    (a * a + b * b).sqrt * largest

instance : Analytic Float where
  pi := pi
  cos := Float.cos
  sin := Float.sin
  log := Float.log
  log2 := Float.log2
  log10 := Float.log10
  hypot := hypot

end Double

end EndlessRemix
