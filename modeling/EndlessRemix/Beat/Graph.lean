import EndlessRemix.Beat.Distance
import EndlessRemix.Beat.Sequence
import EndlessRemix.ErrorKind

/-!
# The similarity graph

Two beats are connected when their distance plus bar penalty is below a threshold. `buildGraph`
measures every unordered pair once, row by row, and records it in both neighbor lists, so each list
comes out in ascending order of its destinations. `Beat.neighborsIn` is the same list by definition:
every other beat that is near enough, in order. A build that fails gives no new beats, so the old
ones keep their lists.
-/

namespace EndlessRemix

/-- What decides which beats are connected. -/
structure GraphOptions (R : Type) where
  threshold : R
  weights : Weights R
  phasePenalty : R
  beatsPerBar : R

/-- Why a graph cannot be built. -/
inductive GraphFault (R : Type) where
  | noBeats
  | beats (fault : BeatFault R)
  | tooFewBeats (count : Nat)
  deriving Repr, DecidableEq

/-- The sentence that reports the fault. -/
def GraphFault.message : GraphFault Float → String
  | .noBeats => ErrorKind.emptyInput.defaultMessage
  | .beats fault => fault.message
  | .tooFewBeats count =>
    "Graph needs at least 2 beats to form a transition, got " ++ toString count

/-- A list without beats is empty input, a broken rule is bad input, and a lone beat is degenerate.
-/
def GraphFault.kind {R : Type} : GraphFault R → ErrorKind
  | .noBeats => .emptyInput
  | .beats _ => .input
  | .tooFewBeats _ => .degenerateGraph

/-- The extremes and the mean of the edges' distances. -/
structure DistanceRange (R : Type) where
  least : R
  mean : R
  greatest : R
  deriving Repr, DecidableEq

/-- A description of a graph. Each connected pair counts as two edges; there is no range of
distances without an edge. -/
structure GraphSummary (R : Type) where
  beatCount : Nat
  edgeCount : Nat
  threshold : R
  branchingBeats : Nat
  distances : Option (DistanceRange R)
  deriving Repr, DecidableEq

/-! ## The scan of all pairs -/

section

variable {R : Type} [Scalar R]

/-- The connections of a remix by default: a bar of four beats is assumed, no downbeat is sought. -/
def GraphOptions.standard : GraphOptions R := ⟨60, Weights.standard, 100, 4⟩

/-- The length of the transition from one beat to another. -/
def GraphOptions.length (o : GraphOptions R) (a b : Beat R) : R :=
  a.distance o.weights b + barPenalty o.beatsPerBar o.phasePenalty a.index b.index

/-- The edges found so far: how many, the sum of their lengths, the least and the greatest. -/
structure EdgeTally (R : Type) where
  count : Nat
  sum : R
  least : Option R
  greatest : Option R

/-- No edges. -/
def EdgeTally.empty : EdgeTally R := ⟨0, 0, none, none⟩

/-- A connected pair adds an edge in each direction. -/
def EdgeTally.addPair (t : EdgeTally R) (length : R) : EdgeTally R where
  count := t.count + 2
  sum := t.sum + length * 2
  least := some (match t.least with | none => length | some x => min x length)
  greatest := some (match t.greatest with | none => length | some x => max x length)

/-- The range of the edges' lengths. -/
def EdgeTally.range (t : EdgeTally R) : Option (DistanceRange R) :=
  match t.least, t.greatest with
  | some least, some greatest => some ⟨least, t.sum / Scalar.ofNat t.count, greatest⟩
  | _, _ => none

/-- The neighbor lists and the tally while pairs are scanned. -/
structure GraphScan (R : Type) where
  neighbors : Array (Array (Neighbor R))
  tally : EdgeTally R

namespace GraphScan

/-- The start of a scan of `count` beats: no beat has a neighbor. -/
def start (count : Nat) : GraphScan R := ⟨.replicate count #[], .empty⟩

/-- The pair of the beats at positions `i` and `j`, measured once and recorded at both. -/
def pair (o : GraphOptions R) (i : Nat) (a : Beat R) (j : Nat) (b : Beat R) (s : GraphScan R) :
    GraphScan R :=
  let length := o.length a b
  -- a length that is no number is not below the threshold
  if length < o.threshold then
    { neighbors := (s.neighbors.modify i (·.push ⟨.beat j, length⟩)).modify j
        (·.push ⟨.beat i, length⟩)
      tally := s.tally.addPair length }
  else s

/-- The pairs of the beat at position `i` with the beats from position `j` on. -/
def row (o : GraphOptions R) (i : Nat) (a : Beat R) :
    Nat → List (Beat R) → GraphScan R → GraphScan R
  | _, [], s => s
  | j, b :: rest, s => row o i a (j + 1) rest (s.pair o i a j b)

/-- The rows of the beats from position `i` on. -/
def rows (o : GraphOptions R) : Nat → List (Beat R) → GraphScan R → GraphScan R
  | _, [], s => s
  | i, a :: rest, s => rows o (i + 1) rest (row o i a (i + 1) rest s)

/-- The scan of all pairs of a list of beats. -/
def all (o : GraphOptions R) (beats : List (Beat R)) : GraphScan R :=
  rows o 0 beats (start beats.length)

end GraphScan

/-! ## The graph -/

/-- Beats with the neighbor lists at their positions. -/
def withNeighbors (beats : List (Beat R)) (lists : Array (Array (Neighbor R))) : List (Beat R) :=
  beats.zipWith (fun beat neighbors => { beat with neighbors }) lists.toList

/-- Beats without neighbors. -/
def withoutNeighbors (beats : List (Beat R)) : List (Beat R) :=
  beats.map fun beat => { beat with neighbors := #[] }

/-- The summary of a graph without an edge. -/
def GraphSummary.edgeless (beats : List (Beat R)) (threshold : R) : GraphSummary R :=
  ⟨beats.length, 0, threshold, 0, none⟩

/-- The beats connected by the options, and a summary. Neighbors that the beats had before play no
part. -/
def buildGraph (o : GraphOptions R) (beats : List (Beat R)) :
    Except (GraphFault R) (List (Beat R) × GraphSummary R) := do
  if beats.isEmpty then throw .noBeats
  (checkBeats beats).mapError .beats
  -- a lone beat is good, but it has nowhere to go
  if beats.length < 2 then throw (.tooFewBeats beats.length)
  let scan := GraphScan.all o beats
  return (withNeighbors beats scan.neighbors,
    { beatCount := beats.length
      edgeCount := scan.tally.count
      threshold := o.threshold
      branchingBeats := scan.neighbors.toList.countP fun list => !list.isEmpty
      distances := scan.tally.range })

/-- The beats after an attempt to build the graph: connected anew if it succeeds, else unchanged. -/
def rebuild (o : GraphOptions R) (beats : List (Beat R)) : List (Beat R) :=
  match buildGraph o beats with
  | .ok (connected, _) => connected
  | .error _ => beats

/-! ## Neighbors by definition -/

/-- The neighbors of the beat at position `i` by definition: every other beat of the list at a
length below the threshold, in order of position. -/
def neighborsIn (o : GraphOptions R) (beats : List (Beat R)) (i : Nat) (a : Beat R) :
    List (Neighbor R) :=
  beats.zipIdx.filterMap fun (b, j) =>
    if j ≠ i ∧ o.length a b < o.threshold then some ⟨.beat j, o.length a b⟩ else none

end

end EndlessRemix
