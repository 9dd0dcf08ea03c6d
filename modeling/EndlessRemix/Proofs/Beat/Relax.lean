import EndlessRemix.Proofs.Beat.Edges
import EndlessRemix.Proofs.Number.Reals

/-!
# Relaxed options

A larger threshold, smaller weights and a smaller penalty remove no edge. Lower weights and a lower
penalty lower every length, as far as it is finite, and a length that is not finite is below no
threshold. So with relaxed options the scan of all pairs records whatever it recorded before, and
perhaps more in between. Which way differences are rounded does not matter: a pair is measured once,
in the same direction under both options.
-/

namespace EndlessRemix

variable {R : Type} [Scalar R]

/-! ## Options -/

/-- The first number is not below zero and not above the second. -/
def AtMost (x' x : R) : Prop := 0 ≤ x' ∧ x' ≤ x

instance (x' x : R) : Decidable (AtMost x' x) := inferInstanceAs (Decidable (0 ≤ x' ∧ x' ≤ x))

/-- No weight of the first kind is above the same weight of the second. -/
structure Weights.Relaxes (w' w : Weights R) : Prop where
  timbre : AtMost w'.timbre w.timbre
  pitch : AtMost w'.pitch w.pitch
  loudnessStart : AtMost w'.loudnessStart w.loudnessStart
  loudnessMax : AtMost w'.loudnessMax w.loudnessMax
  duration : AtMost w'.duration w.duration
  confidence : AtMost w'.confidence w.confidence

/-- The first options have no smaller threshold than the second ones, no larger weights, no larger
penalty, and bars of the same length. -/
structure GraphOptions.Relaxes (o' o : GraphOptions R) : Prop where
  threshold : o.threshold ≤ o'.threshold
  weights : o'.weights.Relaxes o.weights
  phasePenalty : AtMost o'.phasePenalty o.phasePenalty
  beatsPerBar : o'.beatsPerBar = o.beatsPerBar

section

variable [MonotoneArithmetic R]

open MonotoneArithmetic

/-- Every distance is lowered with the weights. -/
theorem lowered_distance {w w' : Weights R} (h : w'.Relaxes w) (a b : Beat R) :
    Lowered (a.distance w' b) (a.distance w b) := by
  have vectors (xs ys : List R) {u u' : R} (hu : AtMost u' u) :
      Lowered (euclideanDistance xs ys * u') (euclideanDistance xs ys * u) :=
    lowered_mul (not_sqrt_lt_zero _) hu.1 hu.2
  have numbers (x y : R) {u u' : R} (hu : AtMost u' u) :
      Lowered (Scalar.abs (x - y) * u') (Scalar.abs (x - y) * u) :=
    lowered_mul (not_abs_lt_zero _) hu.1 hu.2
  unfold Beat.distance
  refine lowered_add (lowered_add (lowered_add (lowered_add (lowered_add ?_ ?_) ?_) ?_) ?_) ?_
  · exact vectors _ _ h.timbre
  · exact vectors _ _ h.pitch
  · exact numbers _ _ h.loudnessStart
  · exact numbers _ _ h.loudnessMax
  · exact numbers _ _ h.duration
  · exact numbers _ _ h.confidence

/-- Positions of the bar are the same for both penalties. -/
lemma lowered_barPenalty {penalty penalty' : R} (h : AtMost penalty' penalty) (bar a b : R) :
    Lowered (barPenalty bar penalty' a b) (barPenalty bar penalty a b) := by
  unfold barPenalty
  split_ifs
  · exact lowered_zero
  · exact lowered_of_le h.1 h.2

/-- What is below the threshold stays below it. -/
theorem length_lt_of_relaxes {o o' : GraphOptions R} (h : o'.Relaxes o) {a b : Beat R}
    (hlt : o.length a b < o.threshold) : o'.length a b < o'.threshold := by
  have hlowered : Lowered (o'.length a b) (o.length a b) := by
    unfold GraphOptions.length
    rw [h.beatsPerBar]
    exact lowered_add (lowered_distance h.weights a b) (lowered_barPenalty h.phasePenalty _ _ _)
  exact lt_of_lowered hlowered hlt h.threshold

end

/-! ## Two scans -/

/-- Where a list of neighbors leads, in order. -/
def destinations (neighbors : List (Neighbor R)) : List (Destination R) := neighbors.map (·.dest)

omit [Scalar R] in
@[simp]
lemma destinations_append (m n : List (Neighbor R)) :
    destinations (m ++ n) = destinations m ++ destinations n := List.map_append

namespace GraphScan

/-- Each position has, in the second scan, whatever neighbors it has in the first one, in the same
order. -/
def Within (s s' : GraphScan R) : Prop :=
  s.neighbors.size = s'.neighbors.size
    ∧ ∀ k, (destinations (s.listAt k)).Sublist (destinations (s'.listAt k))

section

variable [MonotoneArithmetic R] {o o' : GraphOptions R} {s s' : GraphScan R}

lemma destinations_edge (h : o'.Relaxes o) (a b : Beat R) (j : ℕ) :
    (destinations (o.edge a b j)).Sublist (destinations (o'.edge a b j)) := by
  unfold GraphOptions.edge
  by_cases hlt : o.length a b < o.threshold
  · rw [if_pos hlt, if_pos (length_lt_of_relaxes h hlt)]
    exact .refl _
  · rw [if_neg hlt]
    exact List.nil_sublist _

/-- A pair that is recorded first is recorded again. -/
lemma Within.pair (hs : s.Within s') (h : o'.Relaxes o) {i j : ℕ} (hi : i < s.neighbors.size)
    (hj : j < s.neighbors.size) (a b : Beat R) :
    (s.pair o i a j b).Within (s'.pair o' i a j b) := by
  obtain ⟨hsize, hlists⟩ := hs
  refine ⟨by rw [size_pair, size_pair, hsize], ?_⟩
  intro k
  -- to each of two lists the pair adds one entry or none
  have hedge (p q : ℕ) : (destinations (if k = p then o.edge a b q else [])).Sublist
      (destinations (if k = p then o'.edge a b q else [])) := by
    split_ifs
    · exact destinations_edge h a b q
    · exact .refl _
  rw [listAt_pair_once o hi hj, listAt_pair_once o' (hsize ▸ hi) (hsize ▸ hj)]
  simp only [destinations_append]
  exact ((hlists k).append (hedge i j)).append (hedge j i)

lemma Within.row (hs : s.Within s') (h : o'.Relaxes o) {i j : ℕ} {rest : List (Beat R)}
    (hi : i < s.neighbors.size) (hj : j + rest.length ≤ s.neighbors.size) (a : Beat R) :
    (row o i a j rest s).Within (row o' i a j rest s') := by
  induction rest generalizing j s s' with
  | nil => exact hs
  | cons b rest ih =>
    rw [List.length_cons] at hj
    rw [GraphScan.row, GraphScan.row]
    refine ih (hs.pair h hi (by omega) a b) ?_ ?_
    · rwa [size_pair]
    · rw [size_pair]
      omega

lemma Within.rows (hs : s.Within s') (h : o'.Relaxes o) {i : ℕ} {rest : List (Beat R)}
    (hi : i + rest.length ≤ s.neighbors.size) :
    (rows o i rest s).Within (rows o' i rest s') := by
  induction rest generalizing i s s' with
  | nil => exact hs
  | cons a rest ih =>
    rw [List.length_cons] at hi
    rw [GraphScan.rows, GraphScan.rows]
    refine ih (hs.row h (by omega) (by omega) a) ?_
    rw [size_row]
    omega

/-- A scan with relaxed options finds what the scan before found. -/
theorem within_all (h : o'.Relaxes o) (beats : List (Beat R)) :
    (all o beats).Within (all o' beats) := by
  have hstart : (start beats.length : GraphScan R).Within (start beats.length) :=
    ⟨rfl, fun _ => .refl _⟩
  refine hstart.rows h ?_
  rw [start, Array.size_replicate, Nat.zero_add]

end

end GraphScan

/-! ## Two graphs -/

/-- No edge of the one graph is missing in the other: each beat has its neighbors in the same order,
perhaps with more in between, and the counts are not smaller. -/
structure KeepsEdges (g g' : List (Beat R) × GraphSummary R) : Prop where
  neighbors : List.Forall₂ (fun a a' : Beat R =>
    (destinations a.neighbors.toList).Sublist (destinations a'.neighbors.toList)) g.1 g'.1
  edgeCount : g.2.edgeCount ≤ g'.2.edgeCount
  branchingBeats : g.2.branchingBeats ≤ g'.2.branchingBeats

/-- The second of two lists has as many entries of a kind, if it has one wherever the first has. -/
lemma countP_le_of_forall₂ {α : Type} {p : α → Bool} {l l' : List α}
    (h : List.Forall₂ (fun a a' => p a = true → p a' = true) l l') : l.countP p ≤ l'.countP p := by
  induction h with
  | nil => rfl
  | @cons a a' l l' ha _ ih =>
    rw [List.countP_cons, List.countP_cons]
    by_cases hp : p a = true
    · rw [if_pos hp, if_pos (ha hp)]
      omega
    · rw [if_neg hp]
      omega

section

variable {o o' : GraphOptions R} {beats : List (Beat R)} {g g' : List (Beat R) × GraphSummary R}

/-- Two graphs are compared through the scans that they are made of. -/
lemma keepsEdges_of_within (hbuild : buildGraph o beats = .ok g)
    (hbuild' : buildGraph o' beats = .ok g')
    (h : (GraphScan.all o beats).Within (GraphScan.all o' beats)) : KeepsEdges g g' := by
  have hlists : List.Forall₂ (fun list list' : Array (Neighbor R) =>
      (destinations list.toList).Sublist (destinations list'.toList))
      (GraphScan.all o beats).neighbors.toList (GraphScan.all o' beats).neighbors.toList := by
    refine List.forall₂_iff_get.mpr ⟨h.1, ?_⟩
    intro k hk hk'
    have hat := h.2 k
    unfold GraphScan.listAt at hat
    rwa [Array.getElem?_eq_getElem hk, Array.getElem?_eq_getElem hk'] at hat
  rw [← map_neighbors_of_buildGraph hbuild, ← map_neighbors_of_buildGraph hbuild',
    List.forall₂_map_left_iff, List.forall₂_map_right_iff] at hlists
  have hsize {a a' : Beat R} (hsub : (destinations a.neighbors.toList).Sublist
      (destinations a'.neighbors.toList)) : a.neighbors.size ≤ a'.neighbors.size := by
    have hlength := hsub.length_le
    rwa [destinations, destinations, List.length_map, List.length_map] at hlength
  refine ⟨hlists, ?_, ?_⟩
  · rw [edgeCount_of_buildGraph hbuild, edgeCount_of_buildGraph hbuild']
    apply List.Forall₂.sum_le_sum
    rw [List.forall₂_map_left_iff, List.forall₂_map_right_iff]
    exact hlists.imp fun _ _ hsub => hsize hsub
  · rw [branchingBeats_of_buildGraph hbuild, branchingBeats_of_buildGraph hbuild']
    apply countP_le_of_forall₂
    refine hlists.imp fun a a' hsub hne => ?_
    have hle := hsize hsub
    rw [Bool.not_eq_true', ← Bool.not_eq_true, Array.isEmpty_iff_size_eq_zero] at hne ⊢
    omega

end

/-- Relaxing the options of a graph removes no edge, whatever good beats are connected. -/
def RelaxingKeepsEdges (R : Type) [Scalar R] : Prop :=
  ∀ (beats : List (Beat R)) (o o' : GraphOptions R), checkBeats beats = .ok () → 2 ≤ beats.length →
    o'.Relaxes o →
      ∃ g g', buildGraph o beats = .ok g ∧ buildGraph o' beats = .ok g' ∧ KeepsEdges g g'

lemma relaxingKeepsEdges [MonotoneArithmetic R] : RelaxingKeepsEdges R := by
  intro beats o o' hcheck hlen h
  obtain ⟨summary, hbuild⟩ := buildGraph_of_check (o := o) hcheck hlen
  obtain ⟨summary', hbuild'⟩ := buildGraph_of_check (o := o') hcheck hlen
  exact ⟨_, _, hbuild, hbuild', keepsEdges_of_within hbuild hbuild' (GraphScan.within_all h beats)⟩

/-- Relaxing the options of a graph removes no edge, neither with doubles nor in exact arithmetic,
nor if each sum and each product is rounded in whatever way that keeps order. -/
theorem relaxed_graph_keeps_edges :
    RelaxingKeepsEdges Float ∧ RelaxingKeepsEdges Exact
      ∧ ∀ sum product : ℝ →o ℝ, RelaxingKeepsEdges (Exact.RoundedBy sum product) :=
  ⟨relaxingKeepsEdges, relaxingKeepsEdges, fun _ _ => relaxingKeepsEdges⟩

/-- Options with a larger threshold, smaller weights and a smaller penalty than the usual ones. -/
def relaxedOptions : GraphOptions Float := ⟨61, ⟨1, 5, 1, 0, 50, 0.5⟩, 0, 1⟩

/-- The twins, connected in bars of one beat, stay connected. -/
theorem relaxed_graph_keeps_edges_twins :
    checkBeats twins = .ok () ∧ 2 ≤ twins.length
      ∧ relaxedOptions.Relaxes ⟨60, Weights.standard, 100, 1⟩
      ∧ ∃ g, buildGraph relaxedOptions twins = .ok g ∧ 2 ≤ g.2.edgeCount := by
  have hcheck : checkBeats twins = .ok () := by rfl
  have hlen : 2 ≤ twins.length := by decide
  have hrelaxes : relaxedOptions.Relaxes ⟨60, Weights.standard, 100, 1⟩ :=
    { threshold := by decide +kernel
      weights := ⟨by decide +kernel, by decide +kernel, by decide +kernel, by decide +kernel,
        by decide +kernel, by decide +kernel⟩
      phasePenalty := by decide +kernel
      beatsPerBar := rfl }
  obtain ⟨g, g', hbuild, hbuild', hkeeps⟩ :=
    relaxed_graph_keeps_edges.1 twins _ relaxedOptions hcheck hlen hrelaxes
  have hcount : (buildGraph ⟨60, Weights.standard, 100, 1⟩ twins).map (·.2.edgeCount) = .ok 2 := by
    decide +kernel
  rw [hbuild] at hcount
  have htwo : g.2.edgeCount = 2 := Except.ok.inj hcount
  exact ⟨hcheck, hlen, hrelaxes, g', hbuild', htwo ▸ hkeeps.edgeCount⟩

end EndlessRemix
