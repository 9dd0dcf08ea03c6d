import EndlessRemix.Proofs.Beat.Edges
import EndlessRemix.Proofs.Beat.Sequence
import EndlessRemix.Proofs.Number.Extremes

/-!
# What the summary of a graph says

While pairs are scanned, a tally keeps the number of edges, the sum of their lengths, the least and
the greatest. In the end it describes the neighbor lists that the scan leaves behind: the count is
the number of their entries, the extremes are attained by entries and bound all of them, and there
are none exactly if there is no entry. In exact arithmetic the mean is the mean of all entries.
-/

namespace EndlessRemix

variable {R : Type} [Scalar R]

/-! ## The tally of a scan -/

/-- A tally of edges with these lengths. -/
structure EdgeTally.Tallies (t : EdgeTally R) (lengths : List R) : Prop where
  even : Even t.count
  extremes : (lengths = [] ∧ t.least = none ∧ t.greatest = none)
    ∨ ∃ x y, t.least = some x ∧ t.greatest = some y ∧ LeastOf lengths x ∧ GreatestOf lengths y

namespace EdgeTally

variable {t : EdgeTally R} {lengths lengths' : List R}

lemma tallies_empty : (empty : EdgeTally R).Tallies [] := ⟨Even.zero, .inl ⟨rfl, rfl, rfl⟩⟩

lemma Tallies.congr (h : t.Tallies lengths) (hperm : lengths'.Perm lengths) :
    t.Tallies lengths' := by
  refine ⟨h.even, ?_⟩
  rcases h.extremes with ⟨rfl, hextremes⟩ | ⟨x, y, hx, hy, hleast, hgreatest⟩
  · exact .inl ⟨hperm.eq_nil, hextremes⟩
  · exact .inr ⟨x, y, hx, hy, hleast.congr fun z => hperm.mem_iff,
      hgreatest.congr fun z => hperm.mem_iff⟩

/-- A connected pair is tallied as two edges of its length. -/
lemma Tallies.addPair [OrderedArithmetic R] (h : t.Tallies lengths) {length : R}
    (hlength : length ≤ length) : (t.addPair length).Tallies (length :: length :: lengths) := by
  refine ⟨h.even.add even_two, .inr ?_⟩
  -- the second of the two edges has the length of the first
  have htwice : ∀ z, z ∈ length :: length :: lengths ↔ z ∈ length :: lengths := by simp
  rcases h.extremes with ⟨rfl, hleast, hgreatest⟩ | ⟨x, y, hleast, hgreatest, hx, hy⟩
  · refine ⟨length, length, ?_, ?_, (leastOf_singleton hlength).congr htwice,
      (greatestOf_singleton hlength).congr htwice⟩
    · rw [EdgeTally.addPair, hleast]
    · rw [EdgeTally.addPair, hgreatest]
  · refine ⟨min x length, max y length, ?_, ?_, (hx.cons_min hlength).congr htwice,
      (hy.cons_max hlength).congr htwice⟩
    · rw [EdgeTally.addPair, hleast]
    · rw [EdgeTally.addPair, hgreatest]

end EdgeTally

namespace GraphScan

/-- The lengths of the edges found so far. -/
def lengths (s : GraphScan R) : List R := s.edges.map (·.distance)

lemma lengths_start (count : ℕ) : (start count : GraphScan R).lengths = [] := by
  rw [lengths, edges_start, List.map_nil]

/-- A connected pair adds its length twice. -/
lemma perm_lengths_pair {o : GraphOptions R} {i j : ℕ} {s : GraphScan R} {a b : Beat R}
    (hi : i < s.neighbors.size) (hj : j < s.neighbors.size) (h : o.length a b < o.threshold) :
    (s.pair o i a j b).lengths.Perm (o.length a b :: o.length a b :: s.lengths) :=
  (perm_edges_pair hi hj h).map _

lemma lengths_pair_of_not_lt {o : GraphOptions R} {a b : Beat R} (h : ¬o.length a b < o.threshold)
    (i j : ℕ) (s : GraphScan R) : (s.pair o i a j b).lengths = s.lengths := by
  rw [lengths, edges_pair_of_not_lt h, lengths]

/-- The scan tallies the edges that it records. -/
theorem tallies_all [OrderedArithmetic R] (o : GraphOptions R) (beats : List (Beat R)) :
    (all o beats).tally.Tallies (all o beats).lengths := by
  refine all_induction (P := fun s => s.tally.Tallies s.lengths) ?_ ?_
  · rw [lengths_start]
    exact EdgeTally.tallies_empty
  · intro s i a j b hsize hi hj htallies
    rw [tally_pair]
    by_cases h : o.length a b < o.threshold
    · rw [if_pos h]
      exact (htallies.addPair (OrderedArithmetic.le_self_of_lt h)).congr
        (perm_lengths_pair (hsize ▸ hi) (hsize ▸ hj) h)
    · rw [if_neg h, lengths_pair_of_not_lt h]
      exact htallies

/-- In exact arithmetic it adds them up. -/
theorem real_sum_all (o : GraphOptions Exact) (beats : List (Beat Exact)) :
    (all o beats).tally.sum.real = ((all o beats).lengths.map Exact.real).sum := by
  refine all_induction (P := fun s => s.tally.sum.real = (s.lengths.map Exact.real).sum) ?_ ?_
  · rw [lengths_start]
    show ((0 : ℕ) : ℝ) = 0
    exact Nat.cast_zero
  · intro s i a j b hsize hi hj hsum
    rw [tally_pair]
    by_cases h : o.length a b < o.threshold
    · have hperm := perm_lengths_pair (hsize ▸ hi) (hsize ▸ hj) h
      rw [if_pos h, (hperm.map Exact.real).sum_eq, List.map_cons, List.map_cons, List.sum_cons,
        List.sum_cons, ← hsum]
      show s.tally.sum.real + (o.length a b).real * ((2 : ℕ) : ℝ) = _
      push_cast
      ring
    · rw [if_neg h, lengths_pair_of_not_lt h, hsum]

end GraphScan

/-! ## The summary of a graph -/

/-- The distances of all neighbors, one beat after the other. -/
def distancesOf (beats : List (Beat R)) : List R := (edgesOf beats).map (·.distance)

/-- A summary describes beats with their neighbors: the counts are those of the neighbor lists, each
pair of edges counts twice, there is a range of distances exactly if there is an edge, and its ends
are attained and bound all distances. -/
structure GraphSummary.Describes (summary : GraphSummary R) (beats : List (Beat R)) : Prop where
  beatCount : summary.beatCount = beats.length
  edgeCount : summary.edgeCount = (beats.map fun beat => beat.neighbors.size).sum
  even : Even summary.edgeCount
  branchingBeats : summary.branchingBeats = beats.countP fun beat => !beat.neighbors.isEmpty
  distances_eq_none : summary.distances = none ↔ summary.edgeCount = 0
  least : ∀ range, summary.distances = some range → LeastOf (distancesOf beats) range.least
  greatest : ∀ range, summary.distances = some range → GreatestOf (distancesOf beats) range.greatest

section

variable {o : GraphOptions R} {beats connected : List (Beat R)} {summary : GraphSummary R}

lemma distancesOf_of_buildGraph (h : buildGraph o beats = .ok (connected, summary)) :
    distancesOf connected = (GraphScan.all o beats).lengths := by
  rw [distancesOf, edgesOf_of_buildGraph h, GraphScan.lengths]

/-- A graph has as many distances as edges. -/
lemma length_distancesOf (h : buildGraph o beats = .ok (connected, summary)) :
    (distancesOf connected).length = summary.edgeCount := by
  rw [distancesOf_of_buildGraph h, GraphScan.lengths, List.length_map, GraphScan.length_edges_all,
    summary_of_buildGraph h]

/-- The beats of a graph are those that were connected. -/
lemma length_of_buildGraph (h : buildGraph o beats = .ok (connected, summary)) :
    connected.length = beats.length := by
  obtain ⟨-, -, rfl⟩ := of_buildGraph h
  exact length_withNeighbors

variable [OrderedArithmetic R]

/-- The summary of a graph describes it. -/
theorem describes_of_buildGraph (h : buildGraph o beats = .ok (connected, summary)) :
    summary.Describes connected := by
  have htallies := GraphScan.tallies_all o beats
  have hlength := length_distancesOf h
  rw [← distancesOf_of_buildGraph h] at htallies
  have hsummary := summary_of_buildGraph h
  have hdistances : summary.distances = (GraphScan.all o beats).tally.range := by rw [hsummary]
  refine
    { beatCount := by rw [hsummary, length_of_buildGraph h]
      edgeCount := edgeCount_of_buildGraph h
      even := by rw [hsummary]; exact htallies.even
      branchingBeats := branchingBeats_of_buildGraph h
      distances_eq_none := ?_, least := ?_, greatest := ?_ }
  all_goals rw [hdistances, EdgeTally.range]
  · rw [← hlength, List.length_eq_zero_iff]
    rcases htallies.extremes with ⟨hnil, hleast, -⟩ | ⟨x, y, hleast, hgreatest, hx, -⟩
    · rw [hleast]
      exact iff_of_true rfl hnil
    · rw [hleast, hgreatest]
      exact iff_of_false nofun (List.ne_nil_of_mem hx.1)
  · rcases htallies.extremes with ⟨-, hleast, -⟩ | ⟨x, y, hleast, hgreatest, hx, -⟩
    · rw [hleast]
      exact nofun
    · rw [hleast, hgreatest]
      rintro range ⟨⟩
      exact hx
  · rcases htallies.extremes with ⟨-, hleast, -⟩ | ⟨x, y, hleast, hgreatest, -, hy⟩
    · rw [hleast]
      exact nofun
    · rw [hleast, hgreatest]
      rintro range ⟨⟩
      exact hy

end

/-- In exact arithmetic the mean of a graph's distances, taken as often as there are edges, is their
sum, and it lies between the extremes. -/
lemma mean_of_buildGraph {o : GraphOptions Exact} {beats connected : List (Beat Exact)}
    {summary : GraphSummary Exact} {range : DistanceRange Exact}
    (h : buildGraph o beats = .ok (connected, summary)) (hrange : summary.distances = some range) :
    range.mean.real * summary.edgeCount = ((distancesOf connected).map Exact.real).sum
      ∧ range.least ≤ range.mean ∧ range.mean ≤ range.greatest := by
  have hdescribes := describes_of_buildGraph h
  have hsummary := summary_of_buildGraph h
  have hcount : (0 : ℝ) < summary.edgeCount := by
    have hne : ¬summary.edgeCount = 0 := by
      rw [← hdescribes.distances_eq_none, hrange]
      exact Option.some_ne_none range
    exact_mod_cast Nat.pos_of_ne_zero hne
  have hmean : range.mean.real * summary.edgeCount
      = ((distancesOf connected).map Exact.real).sum := by
    have htally : (GraphScan.all o beats).tally.range = some range := by
      rw [← hrange, hsummary]
    rw [EdgeTally.range] at htally
    split at htally
    · have hquotient : range.mean.real
          = (GraphScan.all o beats).tally.sum.real / summary.edgeCount := by
        rw [← Option.some.inj htally, hsummary]
        rfl
      rw [hquotient, div_mul_cancel₀ _ hcount.ne', GraphScan.real_sum_all,
        distancesOf_of_buildGraph h]
    · cases htally
  have hlength : ((distancesOf connected).map Exact.real).length = summary.edgeCount := by
    rw [List.length_map, length_distancesOf h]
  refine ⟨hmean, ?_, ?_⟩
  · -- as many times the least is at most the sum
    have hsum := List.card_nsmul_le_sum ((distancesOf connected).map Exact.real) range.least.real
      (List.forall_mem_map.mpr (hdescribes.least range hrange).2)
    rw [hlength, nsmul_eq_mul, ← hmean, mul_comm] at hsum
    exact le_of_mul_le_mul_right hsum hcount
  · have hsum := List.sum_le_card_nsmul ((distancesOf connected).map Exact.real)
      range.greatest.real (List.forall_mem_map.mpr (hdescribes.greatest range hrange).2)
    rw [hlength, nsmul_eq_mul, ← hmean, mul_comm (summary.edgeCount : ℝ)] at hsum
    exact le_of_mul_le_mul_right hsum hcount

/-- The summary of a graph describes the beats that it has connected, with doubles and in exact
arithmetic: how many they are, how many edges they have and how many of them have any, and that the
extremes are attained and bound all distances, if there is an edge, and are missing if there is
none. In exact arithmetic the mean is that of all edges, and lies between the extremes. -/
theorem buildGraph_describes :
    (∀ (o : GraphOptions Exact) (beats connected : List (Beat Exact)) (summary : GraphSummary Exact),
      buildGraph o beats = .ok (connected, summary) →
        connected.length = beats.length ∧ summary.Describes connected
          ∧ ∀ range, summary.distances = some range →
            range.mean.real * summary.edgeCount = ((distancesOf connected).map Exact.real).sum
              ∧ range.least ≤ range.mean ∧ range.mean ≤ range.greatest)
    ∧ ∀ (o : GraphOptions Float) (beats connected : List (Beat Float)) (summary : GraphSummary Float),
      buildGraph o beats = .ok (connected, summary) →
        connected.length = beats.length ∧ summary.Describes connected := by
  constructor
  · intro o beats connected summary h
    exact ⟨length_of_buildGraph h, describes_of_buildGraph h, fun _ => mean_of_buildGraph h⟩
  · intro o beats connected summary h
    exact ⟨length_of_buildGraph h, describes_of_buildGraph h⟩

/-! ## Three stairs -/

/-- A beat of a second, which starts at its index and is as loud as said. -/
noncomputable def stair (index loudness : ℕ) : Beat Exact :=
  ⟨⟨index⟩, ⟨index⟩, 1, [], [], ⟨loudness⟩, 0, 1, #[]⟩

/-- Three beats, of which the last is twice as far from the second as the first is. -/
noncomputable def stairs : List (Beat Exact) := [stair 0 0, stair 1 1, stair 2 3]

/-- Connections by loudness alone, of beats less than three apart. -/
noncomputable def byLoudness : GraphOptions Exact := ⟨3, ⟨0, 0, 1, 0, 0, 0⟩, 0, 4⟩

lemma checkBeats_stairs : checkBeats stairs = .ok () := by
  have hcheck (index loudness : ℕ) : (stair index loudness).check index = .ok () := by
    refine Beat.check_eq_ok.mpr ⟨?_, ?_⟩
    · rw [Scalar.same, Bool.and_eq_true, decide_eq_true_eq, decide_eq_true_eq]
      exact ⟨le_refl (index : ℝ), le_refl (index : ℝ)⟩
    · have hduration : ((0 : ℕ) : ℝ) < ((1 : ℕ) : ℝ) := by norm_num
      have hstart : ((0 : ℕ) : ℝ) ≤ (index : ℝ) := by simp
      exact ⟨hduration, rfl, hstart, rfl⟩
  have hnext (index loudness loudness' : ℕ) :
      (stair index loudness).Precedes (stair (index + 1) loudness') := by
    constructor
    · show ¬((index + 1 : ℕ) : ℝ) ≤ index
      simp
    · show ¬((index + 1 : ℕ) : ℝ) + 1e-9 < index + ((1 : ℕ) : ℝ)
      push_cast
      norm_num
  rw [stairs, checkBeats, hcheck, ok_bind, checkBeatsAfter, hcheck, ok_bind,
    (Beat.checkNext_eq_ok _).mpr (hnext 0 0 1), ok_bind, checkBeatsAfter, hcheck, ok_bind,
    (Beat.checkNext_eq_ok _).mpr (hnext 1 1 3), ok_bind, checkBeatsAfter]

/-- Two stairs are as far apart as their loudness is. -/
lemma length_stair (i j x y : ℕ) :
    byLoudness.length (stair i x) (stair j y) = ⟨|(x : ℝ) - y|⟩ := by
  have hpenalty : (barPenalty byLoudness.beatsPerBar byLoudness.phasePenalty (stair i x).index
      (stair j y).index).real = ((0 : ℕ) : ℝ) := by
    unfold barPenalty
    split_ifs <;> rfl
  have hreal : (byLoudness.length (stair i x) (stair j y)).real
      = Real.sqrt ((0 : ℕ) : ℝ) * ((0 : ℕ) : ℝ) + Real.sqrt ((0 : ℕ) : ℝ) * ((0 : ℕ) : ℝ)
        + |(x : ℝ) - y| * ((1 : ℕ) : ℝ) + |((0 : ℕ) : ℝ) - ((0 : ℕ) : ℝ)| * ((0 : ℕ) : ℝ)
        + |((1 : ℕ) : ℝ) - ((1 : ℕ) : ℝ)| * ((0 : ℕ) : ℝ)
        + |((1 : ℕ) : ℝ) - ((1 : ℕ) : ℝ)| * ((0 : ℕ) : ℝ)
        + (barPenalty byLoudness.beatsPerBar byLoudness.phasePenalty (stair i x).index
          (stair j y).index).real := rfl
  apply Exact.ext
  rw [hreal, hpenalty]
  push_cast
  ring

lemma length_stair_lt {i j x y : ℕ} :
    byLoudness.length (stair i x) (stair j y) < byLoudness.threshold ↔ |(x : ℝ) - y| < 3 := by
  rw [length_stair]
  show |(x : ℝ) - y| < ((3 : ℕ) : ℝ) ↔ _
  rw [Nat.cast_ofNat]

/-- Two of the three pairs of stairs are connected. So there are four edges, and the mean of their
distances lies between the least and the greatest. Each of the twins is connected with the other. -/
theorem buildGraph_describes_stairs :
    (∃ connected summary range, buildGraph byLoudness stairs = .ok (connected, summary)
      ∧ summary.edgeCount = 4 ∧ summary.distances = some range
      ∧ range.mean.real * 4 = ((distancesOf connected).map Exact.real).sum
      ∧ range.least ≤ range.mean ∧ range.mean ≤ range.greatest)
    ∧ ∃ connected summary, buildGraph ⟨60, Weights.standard, 100, 1⟩ twins = .ok (connected, summary)
      ∧ summary.edgeCount = 2 ∧ summary.Describes connected := by
  constructor
  · obtain ⟨summary, hbuild⟩ := buildGraph_of_check (o := byLoudness) checkBeats_stairs (by simp [stairs])
    have hcount : summary.edgeCount = 4 := by
      have hfirst : |((0 : ℕ) : ℝ) - (1 : ℕ)| < 3 := by norm_num
      have hfar : ¬|((0 : ℕ) : ℝ) - (3 : ℕ)| < 3 := by norm_num
      have hsecond : |((1 : ℕ) : ℝ) - (3 : ℕ)| < 3 := by norm_num
      rw [summary_of_buildGraph hbuild, stairs]
      simp only [GraphScan.all, GraphScan.rows, GraphScan.row, GraphScan.tally_pair, length_stair_lt,
        if_pos hfirst, if_neg hfar, if_pos hsecond]
      rfl
    obtain ⟨-, hdescribes, hmean⟩ := buildGraph_describes.1 _ _ _ _ hbuild
    have hsome : summary.distances ≠ none := by
      rw [Ne, hdescribes.distances_eq_none, hcount]
      norm_num
    obtain ⟨range, hrange⟩ := Option.ne_none_iff_exists'.mp hsome
    have hmean := hmean range hrange
    rw [hcount] at hmean
    exact ⟨_, summary, range, hbuild, hcount, hrange, hmean⟩
  · have hcount : (buildGraph ⟨60, Weights.standard, 100, 1⟩ twins).map (·.2.edgeCount) = .ok 2 := by
      decide +kernel
    obtain ⟨summary, hbuild⟩ :=
      @buildGraph_of_check _ _ ⟨60, Weights.standard, 100, 1⟩ twins (by rfl) (by decide)
    rw [hbuild] at hcount
    exact ⟨_, summary, hbuild, Except.ok.inj hcount, (buildGraph_describes.2 _ _ _ _ hbuild).2⟩

end EndlessRemix
