import EndlessRemix.Analysis.Basic
import EndlessRemix.Beat.Basic

/-!
# Features of a spectrum

The timbre of a sound is the logarithm of the energy in bands of equal width. Its chroma tells how
strong each pitch class is: the magnitude of every frequency counts for the nearest note, octaves
are folded together, and the strongest class becomes one.
-/

namespace EndlessRemix

section

variable {R : Type} [Analytic R]

/-! ## Timbre -/

/-- Bands of equal width that follow one another from the lowest bin on. -/
structure Bands where
  count : Nat
  width : Nat
  deriving Repr, DecidableEq

/-- The bands among which `size` bins are shared out. What does not divide is left out at the top.
-/
def Bands.share (size count : Nat) : Bands := ⟨count, size / count⟩

/-- The bands for a number that may have a fraction: one more band stands for the fraction, and all
are as wide as if the bins were shared out among that number. -/
def Bands.ofNumber (size : Nat) (number : R) : Bands where
  count := (Scalar.whole (Scalar.ceiling number)).toNat
  width := (Scalar.whole (Scalar.floor (Scalar.ofNat size / number))).toNat

/-- The energy of the band of `width` bins from `start` on; no number if it reaches beyond the last
bin. -/
def bandEnergy (spectrum : Array R) (start width : Nat) : R :=
  if start + width ≤ spectrum.size then
    (spectrum.extract start (start + width)).foldl (· + ·) 0
  else Scalar.noNumber

/-- The log energies of the bands of a spectrum. -/
def timbreOf (spectrum : Array R) (bands : Bands) : List R :=
  (List.range bands.count).map fun band =>
    Analytic.log (bandEnergy spectrum (band * bands.width) bands.width + logFloor)

/-! ## Chroma -/

/-- The frequency of bin `i` of a spectrum with `size` bins. -/
def binFrequency (sampleRate : R) (size i : Nat) : R :=
  Scalar.ofNat i * sampleRate / Scalar.ofNat ((size - 1) * 2)

/-- The note nearest to a frequency, in semitones; 69 is the concert pitch of 440. -/
def nearestNote (frequency : R) : Whole :=
  Scalar.whole (Scalar.round (69 + 12 * Analytic.log2 (frequency / 440)))

/-- The pitch class of a frequency, unless it is too low or no note is near it. -/
def pitchClass? (frequency : R) : Option Nat :=
  if frequency < lowestPitch then none
  else
    match nearestNote frequency with
    -- the remainder by twelve is the same in every octave
    | .int note => some (note % 12).toNat
    | _ => none

/-- The pitch classes and magnitudes of the bins above the first. -/
def pitchedBins (spectrum : Array R) (sampleRate : R) : List (Nat × R) :=
  spectrum.toList.zipIdx.tail.filterMap fun (magnitude, i) =>
    (pitchClass? (binFrequency sampleRate spectrum.size i)).map (·, magnitude)

/-- The total magnitude of each pitch class. -/
def chromaSums (spectrum : Array R) (sampleRate : R) : List R :=
  let bins := pitchedBins spectrum sampleRate
  (List.range featureDimensions).map fun pitch =>
    Scalar.sum ((bins.filter (·.1 = pitch)).map (·.2))

/-- Numbers divided by the largest of them, if it is above zero. -/
def normalizeByGreatest : List R → List R
  | [] => []
  | x :: xs =>
    let greatest := xs.foldl max x
    if 0 < greatest then (x :: xs).map (· / greatest) else x :: xs

/-- The strength of each pitch class. -/
def chromaOf (spectrum : Array R) (sampleRate : R) : List R :=
  normalizeByGreatest (chromaSums spectrum sampleRate)

end

end EndlessRemix
