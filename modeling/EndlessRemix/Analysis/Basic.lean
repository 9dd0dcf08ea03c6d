import EndlessRemix.Number.Scalar

/-!
# Parameters of sound analysis

What tunes the analyzer, and the fixed numbers of its measurements.
-/

namespace EndlessRemix

/-- What tunes the analyzer: the samples of a spectral frame, the envelope frames per second, the
least loudness of an onset, and the least number of seconds between onsets. -/
structure AnalysisOptions (R : Type) where
  windowSize : R
  envelopeRate : R
  onsetThreshold : R
  minBeatInterval : R
  deriving Repr, DecidableEq

section

variable {R : Type} [Scalar R]

/-- The analyzer by default; an envelope frame takes twenty milliseconds. -/
def AnalysisOptions.standard : AnalysisOptions R := ⟨1024, 50, 0.05, 0.3⟩

/-- The lowest frequency that counts for the pitch classes. -/
def lowestPitch : R := 27.5

/-- What is added before a logarithm is taken, so that silence has a finite one. -/
def logFloor : R := 1e-9

end

end EndlessRemix
