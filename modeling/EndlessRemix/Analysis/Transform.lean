import EndlessRemix.Analysis.BitReversal
import EndlessRemix.Number.Scalar

/-!
# The magnitude spectrum

The discrete Fourier transform of a real frame, computed in stages. After the bit-reversed order has
brought together what belongs together, a stage of length `2 h` combines each two neighbouring
blocks of `h` values: with the powers of a root of unity as factors, the sums become the first half
of the joint block and the differences the second. The lengths of the stages are counted in a signed
32-bit word, which fails for sizes from `2 ^ 30` on.
-/

namespace EndlessRemix

/-- Why a frame has no spectrum. -/
inductive TransformFault where
  /-- The size is not a power of two from two on. -/
  | size (given : Nat)
  /-- The count of stages never passes the size. -/
  | endless (given : Nat)
  deriving Repr, DecidableEq

/-- The sentence that reports the fault. -/
def TransformFault.message : TransformFault → String
  | .size given => "FFT size must be a power of two, got " ++ toString given
  | .endless given => "The transform of " ++ toString given ++ " values has no last stage"

/-- A size passes the check of a transform: from two on, with a 32-bit word that has no bit in
common with its predecessor's. -/
def isTransformSize (size : Nat) : Bool :=
  2 ≤ size && (size % UInt32.size &&& (size - 1) % UInt32.size) == 0

/-- The lengths from `length` on, doubled until they pass the size. A word that is no longer
positive was doubled beyond its range and never passes it. -/
def stageLengthsFrom (size : Nat) : Nat → Int32 → Option (List Nat)
  | 0, _ => none
  | fuel + 1, length =>
    if (size : Int) < length.toInt then some []
    else if length.toInt ≤ 0 then none
    else (stageLengthsFrom size fuel (length <<< 1)).map (length.toInt.toNat :: ·)

/-- The lengths of the stages of a transform, if they have an end. The word is out of range after 31
doublings. -/
def stageLengths? (size : Nat) : Option (List Nat) := stageLengthsFrom size 32 2

/-! ## Phasors -/

/-- A complex number. -/
structure Phasor (R : Type) where
  re : R
  im : R
  deriving Repr, DecidableEq

section

variable {R : Type} [Scalar R]

namespace Phasor

instance : Add (Phasor R) := ⟨fun x y => ⟨x.re + y.re, x.im + y.im⟩⟩

instance : Sub (Phasor R) := ⟨fun x y => ⟨x.re - y.re, x.im - y.im⟩⟩

instance : Mul (Phasor R) :=
  ⟨fun x y => ⟨x.re * y.re - x.im * y.im, x.re * y.im + x.im * y.re⟩⟩

/-- The real number zero. -/
def zero : Phasor R := ⟨0, 0⟩

/-- The real number one. -/
def one : Phasor R := ⟨1, 0⟩

end Phasor

/-! ## Stages -/

/-- The value at a position. -/
def valueAt (xs : Array (Phasor R)) (i : Nat) : Phasor R := (xs[i]?).getD Phasor.zero

/-- A phasor followed by its products with the powers of a root, each from the one before. -/
def factorsFrom (root : Phasor R) : Nat → Phasor R → List (Phasor R)
  | 0, _ => []
  | count + 1, factor => factor :: factorsFrom root count (factor * root)

/-- One stage on blocks of `half` values. -/
def combineBlocks (half : Nat) (factors : Array (Phasor R)) (xs : Array (Phasor R)) :
    Array (Phasor R) :=
  Array.ofFn fun i : Fin xs.size =>
    let k := i % (2 * half)
    -- the first half of a joint block holds the sums, the second the differences
    if k < half then valueAt xs i + valueAt xs (i + half) * valueAt factors k
    else valueAt xs (i - half) - valueAt xs i * valueAt factors (k - half)

end

section

variable {R : Type} [Analytic R]

/-! ## The spectrum -/

/-- The root of unity of a stage. -/
def stageRoot (length : Nat) : Phasor R :=
  let angle := -2 * Analytic.pi / Scalar.ofNat length
  ⟨Analytic.cos angle, Analytic.sin angle⟩

/-- The stage with a length. -/
def stage (xs : Array (Phasor R)) (length : Nat) : Array (Phasor R) :=
  let half := length / 2
  combineBlocks half (factorsFrom (stageRoot length) half Phasor.one).toArray xs

/-- The transform of values in stages of the given lengths. -/
def transform (lengths : List Nat) (xs : Array (Phasor R)) : Array (Phasor R) :=
  lengths.foldl stage (bitReversed xs)

/-- The absolute value of a phasor. -/
def Phasor.magnitude (x : Phasor R) : R := Analytic.hypot x.re x.im

/-- The magnitudes of a frame's frequencies, from zero up to half the sample rate. -/
def magnitudeSpectrum (frame : Array R) : Except TransformFault (Array R) :=
  let size := frame.size
  if isTransformSize size then
    match stageLengths? size with
    | none => .error (.endless size)
    | some lengths =>
      let spectrum := transform lengths (frame.map fun x => ⟨x, 0⟩)
      -- the spectrum of a real frame is symmetric, so its first half tells all
      .ok (Array.ofFn fun i : Fin (size / 2 + 1) => (valueAt spectrum i).magnitude)
  else .error (.size size)

end

end EndlessRemix
