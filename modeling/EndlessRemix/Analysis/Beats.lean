import EndlessRemix.Analysis.Downmix
import EndlessRemix.Analysis.Feature
import EndlessRemix.Analysis.Onset
import EndlessRemix.Analysis.Transform
import EndlessRemix.ErrorKind

/-!
# Beats of a song

Every two consecutive onsets of the mono downmix enclose a beat, unless they are closer together
than a spectral frame is long; those left out do not count in the numbering. The features of a beat
come from one frame in its middle, faded in and out by a raised cosine before it is transformed.
-/

namespace EndlessRemix

/-- Why the beats of a buffer cannot be found. -/
inductive AnalysisFault where
  | buffer (fault : BufferFault)
  | transform (fault : TransformFault)
  | impossibleWindow
  deriving Repr, DecidableEq

/-- The sentence that reports the fault. -/
def AnalysisFault.message : AnalysisFault → String
  | .buffer fault => fault.message
  | .transform fault => fault.message
  | .impossibleWindow => "No window can have that many samples"

/-- The kind of a fault; only what is wrong with the buffer has one. -/
def AnalysisFault.kind? : AnalysisFault → Option ErrorKind
  | .buffer _ => some .input
  | .transform _ | .impossibleWindow => none

/-! ## Frames -/

/-- The frame in the middle of the samples from `start` to `stop`, kept inside `count` samples. -/
def frameStart (start stop size count : Nat) : Nat :=
  min ((start + stop) / 2 - size / 2) (count - size)

/-- The samples of a spectral frame, and the fewest that a beat must have to get one. -/
structure FrameLength where
  size : Nat
  least : Nat
  deriving Repr, DecidableEq

section

variable {R : Type} [Scalar R] [Memory]

/-- The frame length of a window size. Of a size with a fraction the whole part is the frame, and a
beat must be longer than that. -/
def frameLength? (windowSize : R) : Option FrameLength :=
  ((Scalar.whole windowSize).toLength?).map fun size =>
    ⟨size, if Scalar.isWhole windowSize then size else size + 1⟩

end

section

variable {R : Type} [Analytic R] [Memory]

/-- The height of the window at a sample. -/
def windowHeight (windowSize : R) (i : Nat) : R :=
  Scalar.stored (0.5 - 0.5 * Analytic.cos (2 * Analytic.pi * Scalar.ofNat i / (windowSize - 1)))

/-- The whole window, if it can have that many samples. -/
def window? (windowSize : R) : Option (Array R) :=
  ((Scalar.whole windowSize).toLength?).map fun size =>
    Array.ofFn fun i : Fin size => windowHeight windowSize i

/-- A frame faded in and out. -/
def windowed (windowSize : R) (frame : Array R) : Array R :=
  frame.mapIdx fun i x => Scalar.stored (x * windowHeight windowSize i)

/-- The beat with an index between two onsets. -/
def measureBeat (samples : Array R) (sampleRate windowSize : R) (size index start stop : Nat) :
    Except TransformFault (Beat R) := do
  let first := frameStart start stop size samples.size
  let frame := samples.extract first (first + size)
  let spectrum ← magnitudeSpectrum (windowed windowSize frame)
  let loudness := decibels (rootMeanSquare frame)
  return {
    index := Scalar.ofNat index
    start := Scalar.ofNat start / sampleRate
    duration := Scalar.ofNat (stop - start) / sampleRate
    timbre := timbreOf spectrum (.share spectrum.size featureDimensions)
    pitch := chromaOf spectrum sampleRate
    loudnessStart := loudness
    loudnessMax := loudness
    confidence := 1
    neighbors := #[] }

end

/-! ## Segments -/

/-- The pairs of consecutive onsets that are at least so far apart. -/
def segments (least : Nat) : List Nat → List (Nat × Nat)
  | start :: stop :: rest =>
    if stop - start < least then segments least (stop :: rest)
    else (start, stop) :: segments least (stop :: rest)
  | _ => []

section

variable {R : Type} [Analytic R] [Memory]

/-- The beats of a buffer. -/
def analyzeBeats (buffer : SampleBuffer R) (o : AnalysisOptions R) :
    Except AnalysisFault (List (Beat R)) := do
  if buffer.channels.isEmpty then throw (.buffer .noChannels)
  -- channels of different lengths are mixed as far as the first one goes
  let samples := downmix (buffer.channels.map channelValues)
  let some frame := frameLength? o.windowSize | throw .impossibleWindow
  let bounds := segments frame.least (onsets samples buffer.sampleRate o)
  bounds.zipIdx.mapM fun ((start, stop), index) =>
    (measureBeat samples buffer.sampleRate o.windowSize frame.size index start stop).mapError
      .transform

end

end EndlessRemix
