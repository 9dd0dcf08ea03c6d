import EndlessRemix.ErrorKind
import EndlessRemix.Walk.Path
import EndlessRemix.Walk.Render

/-!
# Generating a track

`generateTrack` checks its inputs, resolves the frames of every beat, walks the graph until the
target duration is reached and renders the path. All checks come before the first draw, so a bad
beat is found before anything is emitted; after them only a walk that gets lost can fail.
-/

namespace EndlessRemix

/-- How long the track is to be, and how often the walk branches. -/
structure TrackOptions (R : Type) where
  targetDurationSeconds : R
  branchProbability : R

/-- Why a track cannot be generated. -/
inductive TrackFault (R σ : Type) where
  | duration (seconds : R)
  | probability (value : R)
  | noBeats
  | buffer (fault : BufferFault)
  | span (fault : SpanFault R)
  | impossibleLength
  | lost (walk : LostWalk σ)
  deriving Repr, DecidableEq

/-- The sentence that reports the fault. -/
def TrackFault.message {σ : Type} : TrackFault Float σ → String
  | .duration seconds => "Target duration must be positive, got " ++ numberText seconds
  | .probability value => "Branch probability must be within [0, 1], got " ++ numberText value
  | .noBeats => "Cannot generate a track without beats"
  | .buffer fault => fault.message
  | .span fault => fault.message
  | .impossibleLength => "No track can have that many frames"
  | .lost _ => "The walk came to where no beat is"

/-- The kind of a fault; a length that no list can have is of none, and neither is a lost walk. -/
def TrackFault.kind? {R σ : Type} : TrackFault R σ → Option ErrorKind
  | .duration _ | .probability _ => some .configuration
  | .noBeats => some .emptyInput
  | .buffer _ | .span _ => some .input
  | .impossibleLength | .lost _ => none

/-- What a generated track reports: the walk and the two frame counts. -/
structure TrackReport (R : Type) where
  path : Array Nat
  jumps : Nat
  wraparounds : Nat
  emitted : Whole
  target : R

/-- A generated track, its report, and the random source after the walk. -/
structure Track (R σ : Type) where
  output : SampleBuffer R
  report : TrackReport R
  source : σ

section

variable {R σ : Type} [Scalar R] [Memory]

/-- The frames of every beat, or the first beat that has none. -/
def spansOf (buffer : SampleBuffer R) (beats : List (Beat R)) :
    Except (SpanFault R) (List (Span R)) :=
  beats.mapM fun beat => beat.span buffer.sampleRate (Scalar.ofNat buffer.frameCount)

/-- The plan of a walk over beats with these spans. -/
def planOf (beats : List (Beat R)) (spans : List (Span R)) (branchProbability : R)
    (draws : Draws R σ) : WalkPlan R σ where
  slices := (spans.map Span.slice).toArray
  neighbors := (beats.map (·.neighbors)).toArray
  branchProbability
  draws

/-- A track of the target duration, walked with values drawn from `source`. -/
def generateTrack (buffer : SampleBuffer R) (beats : List (Beat R)) (o : TrackOptions R)
    (draws : Draws R σ) (source : σ) : Except (TrackFault R σ) (Track R σ) := do
  -- what is no number fails every comparison, so the conditions are stated positively
  if ¬ 0 < o.targetDurationSeconds ∨ ¬ Scalar.isFinite o.targetDurationSeconds then
    throw (.duration o.targetDurationSeconds)
  if ¬ (0 ≤ o.branchProbability ∧ o.branchProbability ≤ 1) then
    throw (.probability o.branchProbability)
  if beats.isEmpty then throw .noBeats
  buffer.check.mapError .buffer
  let spans ← (spansOf buffer beats).mapError .span
  let target := frameTarget o.targetDurationSeconds buffer.sampleRate
  let some frames := (Scalar.whole target).toLength? | throw .impossibleLength
  let plan := planOf beats spans o.branchProbability draws
  let journey ← (walk plan frames source).mapError .lost
  return {
    output := {
      sampleRate := buffer.sampleRate
      channels := buffer.channels.map (renderChannel plan.slices journey.path frames) }
    report := {
      path := journey.path
      jumps := journey.jumps
      wraparounds := journey.wraparounds
      emitted := journey.emitted
      target }
    source := journey.source }

end

end EndlessRemix
