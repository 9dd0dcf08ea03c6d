import EndlessRemix.Beat.Basic

/-!
# How different two beats sound

The distance of two beats is a weighted sum of the differences of their features, each of them the
same in both directions. Beats at different positions of the bar are pushed apart by a penalty.
-/

namespace EndlessRemix

/-- How much each feature counts in the distance. -/
structure Weights (R : Type) where
  timbre : R
  pitch : R
  loudnessStart : R
  loudnessMax : R
  duration : R
  confidence : R
  deriving Repr, DecidableEq

section

variable {R : Type} [Scalar R]

/-- Duration and pitch dominate: beats of clearly different length are never interchangeable. -/
def Weights.standard : Weights R := ⟨1, 10, 1, 1, 100, 1⟩

/-- The running sum of squared differences; a component that one vector lacks counts as zero. -/
def addSquaredDifferences (sum : R) : List R → List R → R
  -- one vector is at its end and goes on with zeros
  | [], ys => ys.foldl (fun sum y => sum + (0 - y) * (0 - y)) sum
  | x :: xs, [] => addSquaredDifferences (sum + (x - 0) * (x - 0)) xs []
  | x :: xs, y :: ys => addSquaredDifferences (sum + (x - y) * (x - y)) xs ys

/-- The Euclidean distance of two vectors of any lengths. -/
def euclideanDistance (xs ys : List R) : R := Scalar.sqrt (addSquaredDifferences 0 xs ys)

/-- The weighted distance of two beats; lower is more interchangeable. -/
def Beat.distance (weights : Weights R) (a b : Beat R) : R :=
  euclideanDistance a.timbre b.timbre * weights.timbre
    + euclideanDistance a.pitch b.pitch * weights.pitch
    + Scalar.abs (a.loudnessStart - b.loudnessStart) * weights.loudnessStart
    + Scalar.abs (a.loudnessMax - b.loudnessMax) * weights.loudnessMax
    + Scalar.abs (a.duration - b.duration) * weights.duration
    + Scalar.abs (a.confidence - b.confidence) * weights.confidence

/-- What connecting two beat indices costs: nothing at the same position of the bar, else the
penalty. -/
def barPenalty (beatsPerBar penalty a b : R) : R :=
  if Scalar.same (Scalar.remainder a beatsPerBar) (Scalar.remainder b beatsPerBar) then 0
  else penalty

end

end EndlessRemix
