import EndlessRemix.Proofs.Beat.Bar
import EndlessRemix.Proofs.Walk.Track

/-!
# Jumps keep the position in the bar

Where the penalty is not below the threshold, every edge joins beats at the same position of the
bar. The jumps of a walk are edges, so they lead to where the music is in its bar, whatever is drawn
and however long the walk goes on.
-/

namespace EndlessRemix

open Double

section

variable {o : GraphOptions Float} {beats connected : List (Beat Float)} {summary : GraphSummary Float}
  {bar : ℕ}

/-- Connected beats are the accepted ones, so their indices are their positions. -/
lemma value?_index_of_buildGraph (h : buildGraph o beats = .ok (connected, summary))
    (hmax : beats.length ≤ 2 ^ 53) {i : ℕ} {a : Beat Float} (ha : connected[i]? = some a) :
    value? a.index = some (i : ℚ) ∧ i < 2 ^ 53 := by
  obtain ⟨hcheck, -, rfl⟩ := of_buildGraph h
  have hi : i < beats.length := by
    rw [← length_withNeighbors (o := o)]
    exact (List.getElem?_eq_some_iff.mp ha).1
  have hindex := value?_index hcheck hmax (List.getElem?_eq_getElem hi)
  rw [getElem?_withNeighbors (List.getElem?_eq_getElem hi)] at ha
  rw [← Option.some.inj ha]
  exact ⟨hindex, by omega⟩

/-- Beats below the threshold stand at the same position of the bar. -/
lemma mod_eq_of_length_lt (hweights : o.weights.NonNegative)
    (hthreshold : o.threshold ≤ o.phasePenalty) (hpos : 0 < bar)
    (hbar : value? o.beatsPerBar = some (bar : ℚ)) (hmax : beats.length ≤ 2 ^ 53)
    (h : buildGraph o beats = .ok (connected, summary)) {i j : ℕ} {a b : Beat Float}
    (ha : connected[i]? = some a) (hb : connected[j]? = some b)
    (hlt : o.length a b < o.threshold) : j % bar = i % bar := by
  obtain ⟨hindex, hi⟩ := value?_index_of_buildGraph h hmax ha
  obtain ⟨hindex', hj⟩ := value?_index_of_buildGraph h hmax hb
  by_contra hne
  exact not_length_lt hweights hthreshold hbar hpos hindex hi hindex' hj (Ne.symm hne) hlt

end

/-- Jumps keep the position in the bar. With weights that are not below zero and a threshold up to
the penalty, accepted beats, no more of them than doubles can count one by one, are connected so
that each edge joins two beats whose indices are the same modulo the beats of a bar. So is each jump
of a walk over this graph, whatever buffer, length, probability and random source it is walked with:
after a decision for a jump the path goes on at the same position of the bar, and after any other
with the next beat. -/
theorem generateTrack_bar [Memory] {o : GraphOptions Float} {beats : List (Beat Float)} {bar : ℕ}
    (hcheck : checkBeats beats = .ok ()) (hlen : 2 ≤ beats.length) (hmax : beats.length ≤ 2 ^ 53)
    (hweights : o.weights.NonNegative) (hthreshold : o.threshold ≤ o.phasePenalty)
    (hpos : 0 < bar) (hbar : value? o.beatsPerBar = some (bar : ℚ)) :
    ∃ connected summary, buildGraph o beats = .ok (connected, summary)
      ∧ (∀ (i : ℕ) (a : Beat Float), connected[i]? = some a → value? a.index = some (i : ℚ)
          ∧ ∀ n ∈ a.neighbors, ∃ (j : ℕ) (b : Beat Float), n.dest = .beat j
              ∧ connected[j]? = some b ∧ value? b.index = some (j : ℚ) ∧ j % bar = i % bar)
      ∧ ∀ {σ : Type} (buffer : SampleBuffer Float) (t : TrackOptions Float) (draws : Draws Float σ)
          (source : σ) (track : Track Float σ),
          generateTrack buffer connected t draws source = .ok track →
          ∃ decisions : List Bool, decisions.length = track.report.path.size
            ∧ track.report.jumps = decisions.count true
            ∧ (∀ (k here : ℕ) (a : Beat Float), track.report.path[k]? = some here →
                connected[here]? = some a →
                (decisions[k]? = some true ↔
                  draws.value (drawsBefore decisions k) source < t.branchProbability
                    ∧ 0 < a.neighbors.size))
            ∧ ∀ k here next : ℕ, track.report.path[k]? = some here →
                track.report.path[k + 1]? = some next →
                (decisions[k]? = some true → next % bar = here % bar)
                  ∧ (decisions[k]? = some false → next = (here + 1) % connected.length) := by
  obtain ⟨summary, hgraph⟩ := buildGraph_of_check (o := o) hcheck hlen
  refine ⟨_, summary, hgraph, ?_, ?_⟩
  · intro i a ha
    refine ⟨(value?_index_of_buildGraph hgraph hmax ha).1, fun n hn => ?_⟩
    obtain ⟨j, b, hb, -, rfl, hlt⟩ := neighbor_of_buildGraph hgraph ha hn
    exact ⟨j, b, rfl, hb, (value?_index_of_buildGraph hgraph hmax hb).1,
      mod_eq_of_length_lt hweights hthreshold hpos hbar hmax hgraph ha hb hlt⟩
  · intro σ buffer t draws source track htrack
    obtain ⟨spans, decisions, hspans, htrail⟩ := exists_trail_of_buildGraph hgraph htrack
    have hsize := size_planOf t.branchProbability draws hspans
    refine ⟨decisions, htrail.length_eq, htrail.jumps_eq, ?_, ?_⟩
    · intro k here a hk ha
      rw [htrail.decided hk, WalkPlan.decision, neighborsAt_planOf, ha, Option.some_inj,
        decide_eq_true_eq]
      rfl
    · intro k here next hk hn
      have hhere := htrail.visited hk
      constructor
      · intro hjump
        obtain ⟨position, hheads, rfl⟩ := htrail.leads hk hjump hn
        have ha := List.getElem?_eq_getElem (hsize ▸ hhere)
        obtain ⟨b, -, hb, -, -, -, hlt⟩ := jump_of_buildGraph hgraph ha hheads
        rw [wrapped_of_lt (hsize ▸ (List.getElem?_eq_some_iff.mp hb).1)]
        exact mod_eq_of_length_lt hweights hthreshold hpos hbar hmax hgraph ha hb hlt
      · intro hstep
        obtain ⟨position, hposition, rfl⟩ := htrail.leads hk hstep hn
        obtain rfl : position = here + 1 := hposition
        rw [wrapped_succ hhere, hsize]

/-- Five beats of a second that sound alike. -/
def quintuplets : List (Beat Float) :=
  (List.range 5).map fun i => ⟨Scalar.ofNat i, Scalar.ofNat i, 1, [1], [1], 0, 0, 1, #[]⟩

/-- Five frames at one frame a second. -/
def fiveFrames : SampleBuffer Float := ⟨1, [#[⟨1⟩, ⟨2⟩, ⟨3⟩, ⟨4⟩, ⟨5⟩]]⟩

/-- Draws that are always low. -/
def alwaysLow : Draws Float Unit := ⟨fun u => (0.25, u), 1⟩

/-- In bars of four beats, of five beats that sound alike the first and the last are joined, and a
walk jumps from the one to the other and back. -/
theorem generateTrack_bar_quintuplets :
    ∃ connected summary track, buildGraph .standard quintuplets = .ok (connected, summary)
      ∧ generateTrack fiveFrames connected ⟨3.5, 0.5⟩ alwaysLow () = .ok track
      ∧ track.report.path = #[0, 4, 0, 4] ∧ track.report.jumps = 4
      ∧ ∃ decisions : List Bool, decisions.count true = 4
          ∧ ∀ k here next : ℕ, track.report.path[k]? = some here →
              track.report.path[k + 1]? = some next → decisions[k]? = some true →
              next % 4 = here % 4 := by
  have hcheck : checkBeats quintuplets = .ok () := by rfl
  have hlen : quintuplets.length = 5 := rfl
  have hweights : (GraphOptions.standard (R := Float)).weights.NonNegative := by
    constructor <;> decide +kernel
  have hthreshold : (GraphOptions.standard (R := Float)).threshold
      ≤ (GraphOptions.standard (R := Float)).phasePenalty := by decide +kernel
  have hbar : value? (GraphOptions.standard (R := Float)).beatsPerBar = some ((4 : ℕ) : ℚ) :=
    value?_ofNat (by norm_num)
  obtain ⟨connected, summary, hgraph, -, hwalks⟩ := generateTrack_bar hcheck (by omega)
    (by omega) hweights hthreshold (by norm_num) hbar
  have hrun : (match buildGraph .standard quintuplets with
      | .ok (connected, _) =>
        match generateTrack fiveFrames connected ⟨3.5, 0.5⟩ alwaysLow () with
        | .ok track => decide (track.report.path = #[0, 4, 0, 4] ∧ track.report.jumps = 4)
        | .error _ => false
      | .error _ => false) = true := by decide +kernel
  rw [hgraph] at hrun
  dsimp only at hrun
  split at hrun
  · rename_i track htrack
    obtain ⟨hpath, hjumps⟩ := of_decide_eq_true hrun
    obtain ⟨decisions, -, hcount, -, hbars⟩ := hwalks _ _ _ _ track htrack
    refine ⟨connected, summary, track, hgraph, htrack, hpath, hjumps, decisions,
      hcount.symm.trans hjumps, ?_⟩
    intro k here next hk hn hjump
    exact (hbars k here next hk hn).1 hjump
  · cases hrun

end EndlessRemix
