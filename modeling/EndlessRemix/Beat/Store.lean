import EndlessRemix.Beat.Graph

/-!
# Beats in a store

Beats that are kept under names can be connected where they are: the build is given the names,
empties the neighbor lists of their beats and adds every edge to two of the lists. It reads the
beats from the store for each pair anew, and a failure takes nothing back that was written before
it. So there must be nothing: all rules are checked before the first list is emptied.

Between two builds a beat may be revised, in everything but its neighbors.
-/

namespace EndlessRemix

/-- Beats under their names. -/
abbrev BeatStore (ι R : Type) := ι → Beat R

section

variable {ι R : Type} [DecidableEq ι]

namespace BeatStore

/-- A beat is put under a name, in the place of the one before. -/
def put (store : BeatStore ι R) (name : ι) (beat : Beat R) : BeatStore ι R :=
  fun other => if other = name then beat else store other

/-- The beat under a name gets another neighbor list. -/
def setNeighbors (store : BeatStore ι R) (name : ι) (neighbors : Array (Neighbor R)) :
    BeatStore ι R :=
  store.put name { store name with neighbors }

/-- The beats under the names get empty neighbor lists. -/
def clear (store : BeatStore ι R) : List ι → BeatStore ι R
  | [] => store
  | name :: rest => clear (store.setNeighbors name #[]) rest

/-- The beat under a name gets one more neighbor. -/
def push (store : BeatStore ι R) (name : ι) (neighbor : Neighbor R) : BeatStore ι R :=
  store.setNeighbors name ((store name).neighbors.push neighbor)

end BeatStore

variable [Scalar R]

/-- The store and the tally while pairs are scanned. -/
structure StoreScan (ι R : Type) where
  store : BeatStore ι R
  tally : EdgeTally R

namespace StoreScan

/-- The pair of the beats at positions `i` and `j`, measured once and recorded at both. -/
def pair (o : GraphOptions R) (i : Nat) (a : ι) (j : Nat) (b : ι) (s : StoreScan ι R) :
    StoreScan ι R :=
  let length := o.length (s.store a) (s.store b)
  if length < o.threshold then
    { store := (s.store.push a ⟨.beat j, length⟩).push b ⟨.beat i, length⟩
      tally := s.tally.addPair length }
  else s

/-- The pairs of the beat at position `i` with the beats from position `j` on. -/
def row (o : GraphOptions R) (i : Nat) (a : ι) : Nat → List ι → StoreScan ι R → StoreScan ι R
  | _, [], s => s
  | j, b :: rest, s => row o i a (j + 1) rest (s.pair o i a j b)

/-- The rows of the beats from position `i` on. -/
def rows (o : GraphOptions R) : Nat → List ι → StoreScan ι R → StoreScan ι R
  | _, [], s => s
  | i, a :: rest, s => rows o (i + 1) rest (row o i a (i + 1) rest s)

/-- The summary of a finished scan. -/
def summary (o : GraphOptions R) (names : List ι) (s : StoreScan ι R) : GraphSummary R where
  beatCount := names.length
  edgeCount := s.tally.count
  threshold := o.threshold
  branchingBeats := names.countP fun name => !(s.store name).neighbors.isEmpty
  distances := s.tally.range

end StoreScan

/-- Connects the beats under the names by the options, and gives a summary. -/
def buildInStore (o : GraphOptions R) (names : List ι) :
    ExceptT (GraphFault R) (StateM (BeatStore ι R)) (GraphSummary R) := do
  if names.isEmpty then throw .noBeats
  ofExcept ((checkBeats (names.map (← get))).mapError .beats)
  if names.length < 2 then throw (.tooFewBeats names.length)
  modify fun store => store.clear names
  let scan := StoreScan.rows o 0 names ⟨← get, .empty⟩
  set scan.store
  return scan.summary o names

namespace BeatStore

/-- What a build reports, and the store that it leaves. -/
def build (store : BeatStore ι R) (o : GraphOptions R) (names : List ι) :
    Except (GraphFault R) (GraphSummary R) × BeatStore ι R :=
  (buildInStore o names).run.run store

end BeatStore

/-! ## Histories -/

/-- What can happen to a store: beats are connected, or a beat is revised. -/
inductive StoreEvent (ι R : Type) where
  | build (o : GraphOptions R) (names : List ι)
  | revise (name : ι) (beat : Beat R)

/-- The store after an event. A revised beat keeps the neighbors of the old one. -/
def StoreEvent.apply (store : BeatStore ι R) : StoreEvent ι R → BeatStore ι R
  | .build o names => (store.build o names).2
  | .revise name beat => store.put name { beat with neighbors := (store name).neighbors }

/-- The store after one event after the other. -/
def BeatStore.after (store : BeatStore ι R) (events : List (StoreEvent ι R)) : BeatStore ι R :=
  events.foldl StoreEvent.apply store

end

end EndlessRemix
