import EndlessRemix.Analysis.Beats
import EndlessRemix.Options.Resolve
import EndlessRemix.Walk.Track

/-!
# Why a remix fails

Every failure of a remix is one of the faults of its parts, or one of its own: a sample rate that is
none, a song without beats, or a graph that no walk can jump on.
-/

namespace EndlessRemix

/-- Why a walk cannot jump. -/
inductive DegenerateCause (R : Type) where
  | tooFewBeats (count : Nat)
  | noEdges (threshold : R)
  deriving Repr, DecidableEq

/-- The sentence that reports the cause. -/
def DegenerateCause.message : DegenerateCause Float → String
  | .tooFewBeats count => GraphFault.message (.tooFewBeats count)
  | .noEdges threshold => "No beat pair is closer than threshold " ++ numberText threshold

/-- Why a remix fails. -/
inductive RemixError (R : Type) where
  | option (fault : OptionFault R)
  | sampleRate (given : R)
  | buffer (fault : BufferFault)
  | analysis (fault : AnalysisFault)
  | noBeats
  | beats (fault : BeatFault R)
  | degenerate (cause : DegenerateCause R)
  | track (fault : TrackFault R UInt32)
  deriving Repr, DecidableEq

namespace RemixError

/-- The sentence that reports the error. -/
def message : RemixError Float → String
  | option fault => fault.message
  | sampleRate given => "sampleRate must be positive, got " ++ numberText given
  | buffer fault => fault.message
  | analysis fault => fault.message
  | noBeats => ErrorKind.emptyInput.defaultMessage
  | beats fault => fault.message
  | degenerate cause => cause.message
  | track fault => fault.message

/-- The kind of an error. What has none is a defect of the program and not of its input. -/
def kind? {R : Type} : RemixError R → Option ErrorKind
  | option _ | sampleRate _ => some .configuration
  | buffer _ | beats _ => some .input
  | analysis fault => fault.kind?
  | noBeats => some .emptyInput
  | degenerate _ => some .degenerateGraph
  | track fault => fault.kind?

/-- A graph fault as an error of the remix. -/
def ofGraph {R : Type} : GraphFault R → RemixError R
  | .noBeats => noBeats
  | .beats fault => beats fault
  | .tooFewBeats count => degenerate (.tooFewBeats count)

end RemixError

end EndlessRemix
