import EndlessRemix.Options.Basic
import EndlessRemix.Random

/-!
# Resolving settings

`RemixSettings.resolve` checks every setting in a fixed order and fills in what is missing, before
any audio is looked at. Of several bad settings the first in this order is reported. A seed is
reduced to its whole part; without one, a drawn number decides.
-/

namespace EndlessRemix

/-- The options whose value is any number in some range. -/
inductive OptionName where
  | targetDurationSeconds
  | threshold
  | branchProbability
  | phasePenalty
  | seed
  | weightOfTimbre
  | weightOfPitch
  | weightOfLoudnessStart
  | weightOfLoudnessMax
  | weightOfDuration
  | weightOfConfidence
  | envelopeRate
  | onsetThreshold
  | minBeatInterval
  deriving Repr, DecidableEq

/-- The name of an option in messages. -/
def OptionName.text : OptionName → String
  | targetDurationSeconds => "targetDurationSeconds"
  | threshold => "threshold"
  | branchProbability => "branchProbability"
  | phasePenalty => "phasePenalty"
  | seed => "seed"
  | weightOfTimbre => "weights.timbre"
  | weightOfPitch => "weights.pitch"
  | weightOfLoudnessStart => "weights.loudnessStart"
  | weightOfLoudnessMax => "weights.loudnessMax"
  | weightOfDuration => "weights.duration"
  | weightOfConfidence => "weights.confidence"
  | envelopeRate => "analysis.envelopeRate"
  | onsetThreshold => "analysis.onsetThreshold"
  | minBeatInterval => "analysis.minBeatInterval"

/-- Why a setting is refused. -/
inductive OptionFault (R : Type) where
  | notFinite (name : OptionName) (given : Setting R)
  | negative (name : OptionName) (given : R)
  | notPositive (name : OptionName) (given : R)
  | probability (given : R)
  | beatsPerBar (given : Setting R)
  | degenerateGraph (given : Setting R)
  | windowSize (given : Setting R)
  deriving Repr, DecidableEq

/-- The sentence that reports the fault. -/
def OptionFault.message : OptionFault Float → String
  | .notFinite name given => name.text ++ " must be a finite number, got " ++ given.display
  | .negative name given => name.text ++ " must not be negative, got " ++ numberText given
  | .notPositive name given => name.text ++ " must be positive, got " ++ numberText given
  | .probability given => "branchProbability must be within [0, 1], got " ++ numberText given
  | .beatsPerBar given => "beatsPerBar must be a positive integer, got " ++ given.display
  | .degenerateGraph given =>
    "degenerateGraph must be \"warn\" or \"reject\", got " ++ given.display
  | .windowSize given => "analysis.windowSize must be a power of two, got " ++ given.display

/-! ## One setting -/

section

variable {R : Type} [Scalar R]

/-- A setting, or the default where it is missing or null. -/
def settingOr (default : Setting R) : Option (Setting R) → Setting R
  | none | some .null => default
  | some setting => setting

/-- A finite number. -/
def Setting.finite (name : OptionName) (s : Setting R) : Except (OptionFault R) R :=
  match s with
  | .number value => if Scalar.isFinite value then .ok value else .error (.notFinite name s)
  | _ => .error (.notFinite name s)

/-- A finite number that is not below zero. -/
def Setting.nonNegative (name : OptionName) (s : Setting R) : Except (OptionFault R) R := do
  let value ← s.finite name
  if value < 0 then throw (.negative name value)
  return value

/-- A finite number above zero. -/
def Setting.positive (name : OptionName) (s : Setting R) : Except (OptionFault R) R := do
  let value ← s.finite name
  if value ≤ 0 then throw (.notPositive name value)
  return value

/-- A probability. -/
def Setting.probability (s : Setting R) : Except (OptionFault R) R := do
  let value ← s.finite .branchProbability
  if value < 0 ∨ 1 < value then throw (.probability value)
  return value

/-- A positive integer. -/
def Setting.beatsPerBar (s : Setting R) : Except (OptionFault R) R :=
  match s with
  | .number value =>
    if Scalar.isWhole value ∧ ¬ value < 1 then .ok value else .error (.beatsPerBar s)
  | _ => .error (.beatsPerBar s)

/-- The word of a policy. -/
def Setting.policy (s : Setting R) : Except (OptionFault R) DegeneratePolicy :=
  match s with
  | .text word =>
    match DegeneratePolicy.of? word with
    | some policy => .ok policy
    | none => .error (.degenerateGraph s)
  | _ => .error (.degenerateGraph s)

/-- The words of a number and of its predecessor have no bit in common: of the numbers below
`2 ^ 32`, the powers of two and zero. -/
def sharesNoBit (value : R) : Bool :=
  (Scalar.whole value).toWord 32 &&& (Scalar.whole (value - 1)).toWord 32 == 0

/-- An integer from two on whose word shares no bit with its predecessor's. -/
def Setting.windowSize (s : Setting R) : Except (OptionFault R) R :=
  match s with
  | .number value =>
    if Scalar.isWhole value ∧ ¬ value < 2 ∧ sharesNoBit value then .ok value
    else .error (.windowSize s)
  | _ => .error (.windowSize s)

/-- A seed without its fraction. A whole number has one zero only, so what lies between minus one
and zero, or is a zero with a sign, gives the seed zero; the random numbers and the text of a seed
do not tell such zeros apart. -/
def Setting.seed (s : Setting R) : Except (OptionFault R) R := do
  return Scalar.truncate (← s.finite .seed)

/-! ## All settings -/

/-- A weight: the default where it is missing, but not where it is null. -/
def weightOr (name : OptionName) (default : R) : Option (Setting R) → Except (OptionFault R) R
  | none => .ok default
  | some setting => setting.nonNegative name

/-- The weights that the settings ask for. -/
def WeightSettings.resolve (s : WeightSettings R) : Except (OptionFault R) (Weights R) := do
  let d : Weights R := .standard
  return {
    timbre := ← weightOr .weightOfTimbre d.timbre s.timbre
    pitch := ← weightOr .weightOfPitch d.pitch s.pitch
    loudnessStart := ← weightOr .weightOfLoudnessStart d.loudnessStart s.loudnessStart
    loudnessMax := ← weightOr .weightOfLoudnessMax d.loudnessMax s.loudnessMax
    duration := ← weightOr .weightOfDuration d.duration s.duration
    confidence := ← weightOr .weightOfConfidence d.confidence s.confidence }

/-- The analysis that the settings ask for. -/
def AnalysisSettings.resolve (s : AnalysisSettings R) :
    Except (OptionFault R) (AnalysisOptions R) := do
  let d : AnalysisOptions R := .standard
  return {
    windowSize := ← (settingOr (.number d.windowSize) s.windowSize).windowSize
    envelopeRate :=
      ← (settingOr (.number d.envelopeRate) s.envelopeRate).positive .envelopeRate
    onsetThreshold :=
      ← (settingOr (.number d.onsetThreshold) s.onsetThreshold).nonNegative .onsetThreshold
    minBeatInterval :=
      ← (settingOr (.number d.minBeatInterval) s.minBeatInterval).nonNegative .minBeatInterval }

/-- The options that the settings ask for. `drawn` is the number in `[0, 1)` that decides the seed
if none is given. -/
def RemixSettings.resolve (drawn : R) (s : RemixSettings R) :
    Except (OptionFault R) (RemixOptions R) := do
  let d : GraphOptions R := .standard
  let targetDurationSeconds ←
    (settingOr (.number standardDuration) s.targetDurationSeconds).positive .targetDurationSeconds
  let threshold ← (settingOr (.number d.threshold) s.threshold).nonNegative .threshold
  let branchProbability ←
    (settingOr (.number standardBranchProbability) s.branchProbability).probability
  let phasePenalty ← (settingOr (.number d.phasePenalty) s.phasePenalty).nonNegative .phasePenalty
  let beatsPerBar ← (settingOr (.number d.beatsPerBar) s.beatsPerBar).beatsPerBar
  let degenerateGraph ← (settingOr (.text DegeneratePolicy.warn.text) s.degenerateGraph).policy
  -- unlike the settings before, a seed that is null is not taken for a missing one
  let seed ←
    match s.seed with
    | none => pure (seedOfDraw drawn)
    | some setting => setting.seed
  let weights ← s.weights.resolve
  let analysis ← s.analysis.resolve
  return {
    targetDurationSeconds, threshold, branchProbability, seed, weights, phasePenalty, beatsPerBar,
    degenerateGraph, analysis }

end

end EndlessRemix
