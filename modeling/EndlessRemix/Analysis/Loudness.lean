import EndlessRemix.Analysis.Basic

/-!
# Loudness

The loudness of samples is the root of their mean square. An envelope gives the loudness of
consecutive frames that do not overlap; the last one may be shorter. Frames have a whole number of
samples as a rule; of other frames only those that begin with a sample have a loudness.
-/

namespace EndlessRemix

section

variable {R : Type} [Scalar R]

/-- The sum of squares, from the front. -/
def sumOfSquares (xs : Array R) : R := xs.foldl (fun sum x => sum + x * x) 0

/-- The root of the mean square; silence when there are no samples. -/
def rootMeanSquare (xs : Array R) : R :=
  if xs.isEmpty then 0 else Scalar.sqrt (sumOfSquares xs / Scalar.ofNat xs.size)

/-- The number of frames that hold `count` samples, `size` in each but perhaps the last. -/
def frameTotal (count size : Nat) : Nat := (count + size - 1) / size

/-- The loudness of consecutive frames of `size` samples. -/
def frameLoudness (samples : Array R) (size : Nat) : Array R :=
  Array.ofFn fun i : Fin (frameTotal samples.size size) =>
    rootMeanSquare (samples.extract (i * size) (i * size + size))

/-- The loudness of frames of any length: an infinite frame holds all samples, and the loudness of a
frame whose length is no number is no number. -/
def envelope (samples : Array R) : Whole → Array R
  | .int size => frameLoudness samples size.toNat
  | .posInf => frameLoudness samples samples.size
  | .negInf | .nan => if samples.isEmpty then #[] else #[Scalar.noNumber]

/-! ## Frames with a fraction -/

/-- The loudness of the frame that begins at `offset` and lasts for `size` samples, the last of them
perhaps in part. One that begins between two samples has a loudness that is no number. -/
def loudnessFrom (samples : Array R) (size offset : R) : R :=
  let stop := min (offset + size) (Scalar.ofNat samples.size)
  if Scalar.isWhole offset then
    let first := (Scalar.whole offset).toNat
    let last := (Scalar.whole (Scalar.ceiling stop)).toNat
    -- a last sample that the frame holds in part counts in full
    Scalar.sqrt (sumOfSquares (samples.extract first last) / (stop - offset))
  else Scalar.noNumber

/-- The loudness of the frames from `offset` on, for at most `fuel` frames. -/
def loudnessOn (samples : Array R) (size : R) : Nat → R → List R
  | 0, _ => []
  | fuel + 1, offset =>
    if offset < Scalar.ofNat samples.size then
      loudnessFrom samples size offset :: loudnessOn samples size fuel (offset + size)
    else []

/-- The loudness of consecutive frames of a size with a fraction. An offset that grows at all grows
by half the size at least, whatever the rounding, which bounds the number of frames. -/
def fractionalEnvelope (samples : Array R) (size : R) : Array R :=
  let fuel := 2 * (Scalar.whole (Scalar.ofNat samples.size / size)).toNat + 2
  (loudnessOn samples size fuel 0).toArray

/-- The loudness of consecutive frames of a size that may be any number. -/
def envelopeOf (samples : Array R) (size : R) : Array R :=
  if Scalar.isFinite size ∧ ¬ Scalar.isWhole size then fractionalEnvelope samples size
  else envelope samples (Scalar.whole size)

end

/-- An amplitude in decibels. -/
def decibels {R : Type} [Analytic R] (amplitude : R) : R :=
  20 * Analytic.log10 (amplitude + logFloor)

end EndlessRemix
