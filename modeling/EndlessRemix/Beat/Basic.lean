import EndlessRemix.Number.Scalar

/-!
# `Beat`: a slice of the song with its features

A beat is an interval of the song together with what the similarity measure compares: the timbre
and pitch vectors, two loudness values, the duration and the confidence. Its neighbors are the
beats that a walk may jump to from it.
-/

namespace EndlessRemix

/-- Where a jump leads: to the beat at a position, or astray, to a number that is no position. -/
inductive Destination (R : Type) where
  | beat (position : Nat)
  | stray (number : R)
  deriving Repr, DecidableEq

/-- A beat that can be jumped to, and how far away it sounds. -/
structure Neighbor (R : Type) where
  dest : Destination R
  distance : R
  deriving Repr, DecidableEq

/-- A beat. The times are in seconds, the loudness in decibels. -/
structure Beat (R : Type) where
  index : R
  start : R
  duration : R
  timbre : List R
  pitch : List R
  loudnessStart : R
  loudnessMax : R
  confidence : R
  neighbors : Array (Neighbor R)

/-- The number of entries of a beat's timbre and pitch vectors. -/
def featureDimensions : Nat := 12

end EndlessRemix
