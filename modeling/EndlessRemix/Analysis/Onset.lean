import EndlessRemix.Analysis.Loudness

/-!
# Onsets

A beat begins where the loudness has a peak: a frame louder than both neighbours and than a
threshold. Peaks are taken greedily from the front, each more than a minimum number of frames after
the last one taken; the start of the song is the first onset. The end is none, so the sound after
the last onset belongs to no beat.
-/

namespace EndlessRemix

/-- The larger of one and a whole number. -/
def Whole.atLeastOne : Whole → Whole
  | .int value => .int (max 1 value)
  | .posInf => .posInf
  | .negInf => .int 1
  | .nan => .nan

/-- A natural lies above a whole number. -/
def Whole.isBelow (w : Whole) (n : Nat) : Bool :=
  match w with
  | .int value => value < n
  | .posInf | .nan => false
  | .negInf => true

section

variable {R : Type} [Scalar R]

/-- The samples of an envelope frame. -/
def frameSize (sampleRate : R) (o : AnalysisOptions R) : Whole :=
  (Scalar.whole (Scalar.floor (sampleRate / o.envelopeRate))).atLeastOne

/-- How many envelope frames two onsets must be more than apart. -/
def leastGap (o : AnalysisOptions R) : Whole :=
  Scalar.whole (Scalar.round (o.minBeatInterval * o.envelopeRate))

/-- Frame `i` is louder than both its neighbours and than the threshold. -/
def isPeak (loudness : Array R) (threshold : R) (i : Nat) : Bool :=
  match i with
  | 0 => false
  | before + 1 =>
    match loudness[before]?, loudness[before + 1]?, loudness[before + 2]? with
    | some left, some value, some right => left < value ∧ right < value ∧ threshold < value
    | _, _, _ => false

/-- All peaks, in order. -/
def peaks (loudness : Array R) (threshold : R) : List Nat :=
  (List.range loudness.size).filter (isPeak loudness threshold)

end

/-- The frames that are more than `gap` after the last one taken, from the front. -/
def takeSpaced (gap : Whole) : Nat → List Nat → List Nat
  | _, [] => []
  | last, i :: rest =>
    -- the gap is counted from the last frame taken, not from the last peak
    if gap.isBelow (i - last) then i :: takeSpaced gap i rest else takeSpaced gap last rest

section

variable {R : Type} [Scalar R]

/-- The frames at which beats begin. -/
def onsetFrames (loudness : Array R) (threshold : R) (gap : Whole) : List Nat :=
  0 :: takeSpaced gap 0 (peaks loudness threshold)

/-- The sample positions at which beats begin. -/
def onsets (samples : Array R) (sampleRate : R) (o : AnalysisOptions R) : List Nat :=
  let size := frameSize sampleRate o
  let frames := onsetFrames (envelope samples size) o.onsetThreshold (leastGap o)
  match size with
  | .int size => frames.map (· * size.toNat)
  -- one frame holds everything, so the start is the only onset
  | _ => frames

end

end EndlessRemix
