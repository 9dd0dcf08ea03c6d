import EndlessRemix.Analysis.Basic
import EndlessRemix.Beat.Graph

/-!
# The options of a remix

`RemixOptions` says everything a remix depends on beside the audio. `RemixSettings` is what a caller
asks for: every setting may be missing, and none has been checked yet, so a setting may be of any
kind.
-/

namespace EndlessRemix

/-- What to do when no beat can be left by a jump: warn and play the track in order, or refuse. -/
inductive DegeneratePolicy where
  | warn
  | reject
  deriving Repr, DecidableEq

namespace DegeneratePolicy

/-- The word for a policy. -/
def text : DegeneratePolicy → String
  | warn => "warn"
  | reject => "reject"

/-- The policy that a word names. -/
def of? (word : String) : Option DegeneratePolicy :=
  if word = warn.text then some warn else if word = reject.text then some reject else none

end DegeneratePolicy

/-- A remix lasts five minutes by default. -/
def standardDuration {R : Type} [Scalar R] : R := 300

/-- A walk branches at every second beat by default. -/
def standardBranchProbability {R : Type} [Scalar R] : R := 0.5

/-- Everything that a remix depends on beside the audio. -/
structure RemixOptions (R : Type) where
  targetDurationSeconds : R
  threshold : R
  branchProbability : R
  seed : R
  weights : Weights R
  phasePenalty : R
  beatsPerBar : R
  degenerateGraph : DegeneratePolicy
  analysis : AnalysisOptions R
  deriving Repr, DecidableEq

/-- The graph that the options ask for. -/
def RemixOptions.graph {R : Type} (o : RemixOptions R) : GraphOptions R :=
  ⟨o.threshold, o.weights, o.phasePenalty, o.beatsPerBar⟩

/-- The value of a setting as it was given. No setting takes a list or a record, so of such a value
only its text is kept. A value that no text can be made of has no case: a message could not show it.
-/
inductive Setting (R : Type) where
  | number (value : R)
  | text (value : String)
  | flag (value : Bool)
  | compound (shown : String)
  | null
  deriving Repr, DecidableEq

/-- A setting as messages show it. -/
def Setting.display : Setting Float → String
  | .number value => numberText value
  | .text value => value
  | .flag value => if value then "true" else "false"
  | .compound shown => shown
  | .null => "null"

/-- Settings of the weights. -/
structure WeightSettings (R : Type) where
  timbre : Option (Setting R) := none
  pitch : Option (Setting R) := none
  loudnessStart : Option (Setting R) := none
  loudnessMax : Option (Setting R) := none
  duration : Option (Setting R) := none
  confidence : Option (Setting R) := none

/-- Settings of the analyzer. -/
structure AnalysisSettings (R : Type) where
  windowSize : Option (Setting R) := none
  envelopeRate : Option (Setting R) := none
  onsetThreshold : Option (Setting R) := none
  minBeatInterval : Option (Setting R) := none

/-- What a caller asks for. -/
structure RemixSettings (R : Type) where
  targetDurationSeconds : Option (Setting R) := none
  threshold : Option (Setting R) := none
  branchProbability : Option (Setting R) := none
  seed : Option (Setting R) := none
  weights : WeightSettings R := {}
  phasePenalty : Option (Setting R) := none
  beatsPerBar : Option (Setting R) := none
  degenerateGraph : Option (Setting R) := none
  analysis : AnalysisSettings R := {}

/-- A setting with this value. -/
def Setting.ofNumber {R : Type} (value : R) : Option (Setting R) := some (.number value)

/-- Settings that ask for exactly these options, so that the same remix can be made again. -/
def RemixOptions.settings {R : Type} (o : RemixOptions R) : RemixSettings R where
  targetDurationSeconds := Setting.ofNumber o.targetDurationSeconds
  threshold := Setting.ofNumber o.threshold
  branchProbability := Setting.ofNumber o.branchProbability
  seed := Setting.ofNumber o.seed
  weights := {
    timbre := Setting.ofNumber o.weights.timbre
    pitch := Setting.ofNumber o.weights.pitch
    loudnessStart := Setting.ofNumber o.weights.loudnessStart
    loudnessMax := Setting.ofNumber o.weights.loudnessMax
    duration := Setting.ofNumber o.weights.duration
    confidence := Setting.ofNumber o.weights.confidence }
  phasePenalty := Setting.ofNumber o.phasePenalty
  beatsPerBar := Setting.ofNumber o.beatsPerBar
  degenerateGraph := some (.text o.degenerateGraph.text)
  analysis := {
    windowSize := Setting.ofNumber o.analysis.windowSize
    envelopeRate := Setting.ofNumber o.analysis.envelopeRate
    onsetThreshold := Setting.ofNumber o.analysis.onsetThreshold
    minBeatInterval := Setting.ofNumber o.analysis.minBeatInterval }

end EndlessRemix
