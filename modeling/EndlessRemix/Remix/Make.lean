import EndlessRemix.Journal
import EndlessRemix.Log
import EndlessRemix.Remix.Error

/-!
# Making a remix

`makeRemix` checks the settings and the buffer before anything happens, extracts the beats, connects
them, and walks the graph with a generator seeded from the options. It records every notice it gives
and every call of the extractor. A graph without edges is played in order, or refused, as the policy
says. The settings of a finished remix make the same remix again.
-/

namespace EndlessRemix

/-! ## The record of a remix -/

/-- What a remix reports while it is made. -/
inductive Notice (R : Type) where
  | analyzing (frames : Nat) (sampleRate : R)
  | detected (beats : Nat)
  | building (threshold : R)
  | degenerate (cause : DegenerateCause R)
  | connected (edges branchingBeats : Nat)
  | generating (seconds seed : R)
  | emitted (beats jumps wraparounds : Nat)
  deriving Repr, DecidableEq

namespace Notice

/-- Only a graph without edges is worth a warning. -/
def level {R : Type} : Notice R → LogLevel
  | degenerate _ => .warn
  | _ => .info

/-- The text of a notice. -/
def message : Notice Float → String
  | analyzing frames sampleRate =>
    "Analyzing " ++ toString frames ++ " frames at " ++ numberText sampleRate ++ " Hz..."
  | detected beats => "Detected " ++ toString beats ++ " beats"
  | building threshold => "Building graph with threshold " ++ numberText threshold ++ "..."
  | degenerate cause => cause.message ++ "; looping the track sequentially"
  | connected edges branchingBeats =>
    "Created " ++ toString edges ++ " edges across " ++ toString branchingBeats
      ++ " branching beats"
  | generating seconds seed =>
    "Generating " ++ numberText seconds ++ " seconds of audio (seed " ++ numberText seed ++ ")..."
  | emitted beats jumps wraparounds =>
    "Emitted " ++ toString beats ++ " beats (" ++ toString jumps ++ " jumps, "
      ++ toString wraparounds ++ " wraparounds)"

/-- A notice as a log entry. -/
def entry (n : Notice Float) : LogEntry := ⟨n.level, n.message⟩

end Notice

/-- What happens while a remix is made. -/
inductive RemixEvent (R : Type) where
  | notice (n : Notice R)
  | extraction
  deriving Repr, DecidableEq

/-- The notices among events. -/
def notices {R : Type} (events : List (RemixEvent R)) : List (Notice R) :=
  events.filterMap fun event =>
    match event with
    | .notice n => some n
    | .extraction => none

/-- How often beats were extracted. -/
def extractions {R : Type} (events : List (RemixEvent R)) : Nat :=
  events.countP fun event =>
    match event with
    | .notice _ => false
    | .extraction => true

/-! ## What a remix is made with and of -/

/-- A way to find the beats of a buffer. -/
def Extractor (R : Type) : Type :=
  AnalysisOptions R → SampleBuffer R → Except (RemixError R) (List (Beat R))

/-- The beats that the analyzer finds. -/
def Extractor.analyzer {R : Type} [Analytic R] [Memory] : Extractor R := fun o buffer =>
  (analyzeBeats buffer o).mapError .analysis

/-- An extractor that always finds the same beats. -/
def Extractor.constant {R : Type} (beats : List (Beat R)) : Extractor R := fun _ _ => .ok beats

/-- Connected beats, and why no walk can jump between them, if that is so. -/
structure Connection (R : Type) where
  beats : List (Beat R)
  summary : GraphSummary R
  degenerate : Option (DegenerateCause R)

/-- A finished remix: the audio, the connected beats, a description of the graph and of the walk,
and the options that made it. -/
structure Remix (R : Type) where
  output : SampleBuffer R
  beats : List (Beat R)
  graph : GraphSummary R
  walk : TrackReport R
  isDegenerate : Bool
  options : RemixOptions R

/-- Settings that make the same remix again. -/
def Remix.replay {R : Type} (r : Remix R) : RemixSettings R := r.options.settings

/-! ## The making -/

section

variable {R : Type} [Scalar R] [Memory]

/-- A buffer with a positive rate, a channel, and channels of one length. -/
def checkSource (buffer : SampleBuffer R) : Except (RemixError R) Unit := do
  if ¬ Scalar.isFinite buffer.sampleRate ∨ buffer.sampleRate ≤ 0 then
    throw (.sampleRate buffer.sampleRate)
  buffer.check.mapError .buffer

/-- The beats connected as far as they can be. A lone beat cannot, and neither can beats of which no
pair is near enough: then they have no neighbors. -/
def connect (o : GraphOptions R) (beats : List (Beat R)) :
    Except (RemixError R) (Connection R) :=
  match buildGraph o beats with
  | .ok (connected, summary) =>
    .ok ⟨connected, summary, if summary.edgeCount = 0 then some (.noEdges o.threshold) else none⟩
  -- old neighbors of a lone beat must not reach the walk
  | .error (.tooFewBeats count) =>
    .ok ⟨withoutNeighbors beats, .edgeless beats o.threshold, some (.tooFewBeats count)⟩
  | .error fault => .error (.ofGraph fault)

/-- What the policy makes of a connection without edges. -/
def DegeneratePolicy.apply (policy : DegeneratePolicy) (c : Connection R) :
    Journaled (RemixEvent R) (RemixError R) Unit :=
  match c.degenerate, policy with
  | none, _ => pure ()
  | some cause, .warn => .record (.notice (.degenerate cause))
  | some cause, .reject => .ofExcept (.error (.degenerate cause))

/-- The track that the options ask for, on connected beats. -/
def RemixOptions.track (o : RemixOptions R) (buffer : SampleBuffer R) (beats : List (Beat R)) :
    Except (RemixError R) (Track R UInt32) :=
  (generateTrack buffer beats ⟨o.targetDurationSeconds, o.branchProbability⟩ .seeded
    (seedState (Scalar.whole o.seed))).mapError .track

/-- A remix of a buffer, made with options that have been checked. -/
def remixWith (extract : Extractor R) (buffer : SampleBuffer R) (o : RemixOptions R) :
    Journaled (RemixEvent R) (RemixError R) (Remix R) := do
  let say := fun notice => Journaled.record (.notice notice)
  say (.analyzing buffer.frameCount buffer.sampleRate)
  .record .extraction
  let beats ← .ofExcept (extract o.analysis buffer)
  if beats.isEmpty then .ofExcept (.error .noBeats)
  say (.detected beats.length)
  say (.building o.threshold)
  let c ← .ofExcept (connect o.graph beats)
  o.degenerateGraph.apply c
  -- also said of a graph without edges, after the warning
  say (.connected c.summary.edgeCount c.summary.branchingBeats)
  say (.generating o.targetDurationSeconds o.seed)
  let track ← .ofExcept (o.track buffer c.beats)
  say (.emitted track.report.path.size track.report.jumps track.report.wraparounds)
  return {
    output := track.output
    beats := c.beats
    graph := c.summary
    walk := track.report
    isDegenerate := c.degenerate.isSome
    options := o }

/-- A remix of a buffer. `drawn` decides the seed if the settings do not. -/
def makeRemix (extract : Extractor R) (drawn : R) (buffer : SampleBuffer R)
    (settings : RemixSettings R) : Journaled (RemixEvent R) (RemixError R) (Remix R) := do
  let o ← .ofExcept ((settings.resolve drawn).mapError .option)
  .ofExcept (checkSource buffer)
  remixWith extract buffer o

end

end EndlessRemix
