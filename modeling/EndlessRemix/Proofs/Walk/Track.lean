import EndlessRemix.Proofs.Beat.Neighbors
import EndlessRemix.Proofs.Walk.Course
import EndlessRemix.Proofs.Walk.Trail

/-!
# Tracks and the walks behind them

A generated track reports the walk over a plan that is made of the beats and their spans. On a graph
that was just built, every jump of that walk is an edge.
-/

namespace EndlessRemix

variable {R σ : Type} [Scalar R]

/-! ## The plan of a walk -/

section

variable {buffer : SampleBuffer R} {beats : List (Beat R)} {spans : List (Span R)}

/-- Every beat has the span at its position. -/
theorem forall₂_spansOf (h : spansOf buffer beats = .ok spans) :
    List.Forall₂ (fun beat span =>
      beat.span buffer.sampleRate (Scalar.ofNat buffer.frameCount) = .ok span) beats spans :=
  mapM_eq_ok.mp h

/-- Neighbors have no part in the spans of beats. -/
lemma spansOf_withoutNeighbors (buffer : SampleBuffer R) (beats : List (Beat R)) :
    spansOf buffer (withoutNeighbors beats) = spansOf buffer beats := by
  rw [spansOf, withoutNeighbors, List.mapM_map]
  rfl

lemma SameBeats.spansOf_eq {beats' : List (Beat R)} (h : SameBeats beats' beats) :
    spansOf buffer beats' = spansOf buffer beats := by
  rw [← spansOf_withoutNeighbors, h, spansOf_withoutNeighbors]

variable (p : R) (draws : Draws R σ)

lemma neighborsAt_planOf (here : ℕ) :
    (planOf beats spans p draws).neighborsAt here
      = ((beats[here]?).map (·.neighbors)).getD #[] := by
  unfold WalkPlan.neighborsAt planOf
  rw [List.getElem?_toArray, List.getElem?_map]

lemma size_planOf (h : spansOf buffer beats = .ok spans) :
    (planOf beats spans p draws).slices.size = beats.length := by
  unfold planOf
  rw [List.size_toArray, List.length_map, (forall₂_spansOf h).length_eq]

/-- Beats whose neighbors are beats make a closed plan. -/
lemma closed_planOf (h : spansOf buffer beats = .ok spans)
    (hdest : ∀ beat ∈ beats, ∀ neighbor ∈ beat.neighbors,
      ∃ j < beats.length, neighbor.dest = .beat j) :
    (planOf beats spans p draws).Closed := by
  intro here neighbor hmem
  rw [size_planOf p draws h]
  rw [neighborsAt_planOf] at hmem
  cases hbeat : beats[here]? with
  | none =>
    rw [hbeat] at hmem
    simp at hmem
  | some beat =>
    rw [hbeat] at hmem
    exact hdest beat (List.mem_of_getElem? hbeat) neighbor hmem

end

/-! ## Walks over a graph -/

section

variable [SymmetricDifference R] {o : GraphOptions R} {beats connected : List (Beat R)}
  {summary : GraphSummary R}

/-- The neighbors in a graph are other beats below the threshold. -/
theorem neighbor_of_buildGraph (h : buildGraph o beats = .ok (connected, summary)) {here : ℕ}
    {a : Beat R} (ha : connected[here]? = some a) {neighbor : Neighbor R}
    (hmem : neighbor ∈ a.neighbors) :
    ∃ j b, connected[j]? = some b ∧ j ≠ here ∧ neighbor = ⟨.beat j, o.length a b⟩
      ∧ o.length a b < o.threshold := by
  obtain ⟨-, -, rfl⟩ := of_buildGraph h
  have hlt : here < beats.length := by
    rw [← length_withNeighbors (o := o)]
    exact (List.getElem?_eq_some_iff.mp ha).1
  rw [getElem?_withNeighbors (List.getElem?_eq_getElem hlt)] at ha
  rw [← Option.some.inj ha, List.mem_toArray, mem_neighborsIn] at hmem
  obtain ⟨j, b, hb, hj, hl, rfl⟩ := hmem
  rw [← Option.some.inj ha]
  exact ⟨j, _, getElem?_withNeighbors hb, hj, rfl, hl⟩

/-- Over a graph that was just built no walk leaves the beats. -/
lemma closed_of_buildGraph {buffer : SampleBuffer R} {spans : List (Span R)}
    (h : buildGraph o beats = .ok (connected, summary))
    (hspans : spansOf buffer connected = .ok spans) (p : R) (draws : Draws R σ) :
    (planOf connected spans p draws).Closed := by
  refine closed_planOf p draws hspans ?_
  intro a ha neighbor hmem
  obtain ⟨here, hhere⟩ := List.mem_iff_getElem?.mp ha
  obtain ⟨j, b, hb, -, rfl, -⟩ := neighbor_of_buildGraph h hhere hmem
  exact ⟨j, (List.getElem?_eq_some_iff.mp hb).1, rfl⟩

/-- A jump over a graph that was just built leads to the neighbor that its draw picks, another beat
below the threshold. -/
lemma jump_of_buildGraph {spans : List (Span R)} {p : R} {draws : Draws R σ} {source : σ}
    {m here position : ℕ} {a : Beat R} (h : buildGraph o beats = .ok (connected, summary))
    (ha : connected[here]? = some a)
    (hjump : (planOf connected spans p draws).Heads source m here true position) :
    ∃ (b : Beat R) (index : ℕ), connected[position]? = some b
      ∧ Scalar.whole (pickIndex (draws.value (m + 1) source) (Scalar.ofNat a.neighbors.size))
          = .int index
      ∧ a.neighbors[index]? = some ⟨.beat position, o.length a b⟩
      ∧ position ≠ here ∧ o.length a b < o.threshold := by
  obtain ⟨neighbor, hchoose, hdest⟩ := hjump
  rw [neighborsAt_planOf, ha] at hchoose
  obtain ⟨j, b, hb, hne, rfl, hlt⟩ :=
    neighbor_of_buildGraph h ha (mem_of_chooseNeighbor? hchoose)
  obtain rfl := Destination.beat.inj hdest
  obtain ⟨index, hpick, hget⟩ := exists_of_chooseNeighbor? hchoose
  exact ⟨b, index, hb, hpick, hget, hne, hlt⟩

/-- The walk behind a track over a graph that was just built leaves a trail on the beats. -/
theorem exists_trail_of_buildGraph [Memory] {buffer : SampleBuffer R} {t : TrackOptions R}
    {draws : Draws R σ} {source : σ} {track : Track R σ}
    (h : buildGraph o beats = .ok (connected, summary))
    (htrack : generateTrack buffer connected t draws source = .ok track) :
    ∃ spans decisions, spansOf buffer connected = .ok spans
      ∧ Trail (planOf connected spans t.branchProbability draws) source decisions
          track.report.path track.report.jumps track.report.wraparounds track.source := by
  obtain ⟨spans, frames, journey, hbeats, -, hspans, -, hwalk, rfl⟩ := of_generateTrack htrack
  have hpos : 0 < (planOf connected spans t.branchProbability draws).slices.size := by
    rw [size_planOf t.branchProbability draws hspans]
    exact List.length_pos_iff.mpr hbeats
  obtain ⟨decisions, htrail⟩ :=
    exists_trail (closed_of_buildGraph h hspans t.branchProbability draws) hpos hwalk
  exact ⟨spans, decisions, hspans, htrail⟩

end

/-- The walk behind a track over a graph that was just built: its path stays on the beats and starts
at the first, each entry is followed by one decision, and the draws decide. After a jump comes the
neighbor at the position that the next draw picks, another beat below the threshold; after a step
comes the next beat, after the last beat the first. Both counters and the number of draws follow
from the path and the decisions. -/
theorem generateTrack_walk [Memory] {σ : Type} {o : GraphOptions Float}
    {beats connected : List (Beat Float)} {summary : GraphSummary Float}
    {buffer : SampleBuffer Float} {t : TrackOptions Float}
    {draws : Draws Float σ} {source : σ} {track : Track Float σ}
    (hgraph : buildGraph o beats = .ok (connected, summary))
    (htrack : generateTrack buffer connected t draws source = .ok track) :
    ∃ decisions : List Bool, decisions.length = track.report.path.size
      ∧ (∀ k here : ℕ, track.report.path[k]? = some here → here < connected.length)
      ∧ (∀ here : ℕ, track.report.path[0]? = some here → here = 0)
      ∧ (∀ (k here : ℕ) (a : Beat Float), track.report.path[k]? = some here →
          connected[here]? = some a →
          (decisions[k]? = some true ↔
            draws.value (drawsBefore decisions k) source < t.branchProbability
              ∧ 0 < a.neighbors.size))
      ∧ (∀ k here next : ℕ, track.report.path[k]? = some here →
          track.report.path[k + 1]? = some next →
          (decisions[k]? = some true → ∃ (a b : Beat Float) (position : ℕ),
            connected[here]? = some a ∧ connected[next]? = some b
              ∧ Scalar.whole (pickIndex (draws.value (drawsBefore decisions k + 1) source)
                  (Scalar.ofNat a.neighbors.size)) = .int position
              ∧ a.neighbors[position]? = some ⟨.beat next, o.length a b⟩
              ∧ next ≠ here
              ∧ a.distance o.weights b
                  + barPenalty o.beatsPerBar o.phasePenalty a.index b.index < o.threshold)
          ∧ (decisions[k]? = some false → next = (here + 1) % connected.length))
      ∧ track.report.jumps = decisions.count true
      ∧ track.report.wraparounds = (List.range (track.report.path.size - 1)).countP (fun k =>
          track.report.path[k]? == some (connected.length - 1) && decisions[k]? == some false)
      ∧ track.source = draws.after (track.report.path.size + track.report.jumps) source := by
  obtain ⟨spans, frames, journey, hbeats, -, hspans, -, hwalk, rfl⟩ := of_generateTrack htrack
  have hsize := size_planOf t.branchProbability draws hspans
  have hpos : 0 < (planOf connected spans t.branchProbability draws).slices.size := by
    rw [hsize]
    exact List.length_pos_iff.mpr hbeats
  have hclosed := closed_of_buildGraph hgraph hspans t.branchProbability draws
  obtain ⟨decisions, htrail⟩ := exists_trail hclosed hpos hwalk
  refine ⟨decisions, htrail.length_eq, ?_, ?_, ?_, ?_, htrail.jumps_eq, ?_, htrail.final_eq⟩
  · intro k here hk
    exact hsize ▸ htrail.visited hk
  · intro here h0
    exact htrail.first h0
  · intro k here a hk ha
    rw [htrail.decided hk, WalkPlan.decision, neighborsAt_planOf, ha, Option.some_inj,
      decide_eq_true_eq]
    rfl
  · intro k here next hk hn
    have hhere := htrail.visited hk
    constructor
    · intro hjump
      obtain ⟨position, hheads, rfl⟩ := htrail.leads hk hjump hn
      have ha : connected[here]? = some connected[here] := List.getElem?_eq_getElem (hsize ▸ hhere)
      obtain ⟨b, index, hb, hpick, hget, hne, hlt⟩ := jump_of_buildGraph hgraph ha hheads
      rw [wrapped_of_lt (hsize ▸ (List.getElem?_eq_some_iff.mp hb).1)]
      exact ⟨_, b, index, ha, hb, hpick, hget, hne, hlt⟩
    · intro hstep
      obtain ⟨position, hposition, rfl⟩ := htrail.leads hk hstep hn
      obtain rfl : position = here + 1 := hposition
      rw [wrapped_succ hhere, hsize]
  · rw [← hsize]
    exact htrail.wraparounds_eq

/-- Four frames at two frames a second, two for each of the twins. -/
def fourFrames : SampleBuffer Float := ⟨2, [#[⟨1⟩, ⟨2⟩, ⟨3⟩, ⟨4⟩]]⟩

/-- Numbered draws of which only the fourth is low. -/
def fourthLow : Draws Float ℕ := ⟨fun n => (if n = 3 then 0.25 else 0.75, n + 1), 1⟩

/-- Three steps over the twins, once around, and a jump that nothing follows. -/
theorem generateTrack_walk_twins :
    ∃ connected summary track,
      buildGraph ⟨60, Weights.standard, 100, 1⟩ twins = .ok (connected, summary)
      ∧ generateTrack fourFrames connected ⟨3.5, 0.5⟩ fourthLow 0 = .ok track
      ∧ track.report.path = #[0, 1, 0, 1] ∧ track.report.wraparounds = 1
      ∧ ∃ decisions : List Bool, decisions.length = 4 ∧ decisions.count true = 1
          ∧ fourthLow.after (4 + 1) 0 = track.source := by
  have hcheck : checkBeats twins = .ok () := by rfl
  obtain ⟨summary, hgraph⟩ :=
    buildGraph_of_check (o := ⟨60, Weights.standard, 100, 1⟩) hcheck (by decide)
  have hrun : (match generateTrack fourFrames
        (withNeighbors twins (GraphScan.all ⟨60, Weights.standard, 100, 1⟩ twins).neighbors)
        ⟨3.5, 0.5⟩ fourthLow 0 with
      | .ok track => decide (track.report.path = #[0, 1, 0, 1] ∧ track.report.wraparounds = 1
          ∧ track.report.jumps = 1)
      | .error _ => false) = true := by decide +kernel
  split at hrun
  · rename_i track htrack
    obtain ⟨hpath, hwraps, hjumps⟩ := of_decide_eq_true hrun
    obtain ⟨decisions, hlength, -, -, -, -, hcount, -, hsource⟩ :=
      generateTrack_walk hgraph htrack
    rw [hpath] at hlength
    rw [hpath, hjumps] at hsource
    exact ⟨_, summary, track, hgraph, htrack, hpath, hwraps, decisions, hlength,
      hcount.symm.trans hjumps, hsource.symm⟩
  · cases hrun

end EndlessRemix
