import EndlessRemix.Proofs.Beat.Edges
import EndlessRemix.Proofs.Number.Unsigned

/-!
# Features that do not weigh

Two lists of beats that agree in every feature with a weight are connected alike: the same neighbors
at the same distances, and the same summary. Start times and the neighbors from before play no part
at all. A feature whose weight is zero adds that zero to every distance, as long as what the beats
differ by in it is finite; an infinite difference, times zero, is no number.
-/

namespace EndlessRemix

variable {R : Type} [Scalar R]

/-- The weight lets its feature play a part. -/
def Weighs (weight : R) : Prop := Scalar.same weight 0 = false

instance (weight : R) : Decidable (Weighs weight) :=
  inferInstanceAs (Decidable (Scalar.same weight 0 = false))

namespace Beat

/-- Two beats are equal at each feature that weighs, and have the same index. -/
structure AgreesOn (w : Weights R) (a a' : Beat R) : Prop where
  index : a.index = a'.index
  timbre : Weighs w.timbre → a.timbre = a'.timbre
  pitch : Weighs w.pitch → a.pitch = a'.pitch
  loudnessStart : Weighs w.loudnessStart → a.loudnessStart = a'.loudnessStart
  loudnessMax : Weighs w.loudnessMax → a.loudnessMax = a'.loudnessMax
  duration : Weighs w.duration → a.duration = a'.duration
  confidence : Weighs w.confidence → a.confidence = a'.confidence

/-- What two beats differ by in each feature that does not weigh is a finite number: the features
are finite, and no difference and no sum of squares leaves the numbers. -/
structure FinitelyApart (w : Weights R) (a b : Beat R) : Prop where
  timbre : ¬Weighs w.timbre → Scalar.isFinite (euclideanDistance a.timbre b.timbre) = true
  pitch : ¬Weighs w.pitch → Scalar.isFinite (euclideanDistance a.pitch b.pitch) = true
  loudnessStart : ¬Weighs w.loudnessStart →
    Scalar.isFinite (Scalar.abs (a.loudnessStart - b.loudnessStart)) = true
  loudnessMax : ¬Weighs w.loudnessMax →
    Scalar.isFinite (Scalar.abs (a.loudnessMax - b.loudnessMax)) = true
  duration : ¬Weighs w.duration → Scalar.isFinite (Scalar.abs (a.duration - b.duration)) = true
  confidence : ¬Weighs w.confidence →
    Scalar.isFinite (Scalar.abs (a.confidence - b.confidence)) = true

end Beat

/-! ## One distance -/

section

variable [UnsignedArithmetic R]

open UnsignedArithmetic (Unsigned unsigned_zero unsigned_add unsigned_mul_self unsigned_sqrt
  unsigned_abs mul_of_same_zero)

lemma unsigned_addSquaredDifferences {sum : R} (h : Unsigned sum) (xs ys : List R) :
    Unsigned (addSquaredDifferences sum xs ys) := by
  fun_induction addSquaredDifferences sum xs ys with
  | case1 sum ys =>
    induction ys generalizing sum with
    | nil => exact h
    | cons y ys ih => exact ih _ (unsigned_add h (unsigned_mul_self _))
  | case2 sum x xs ih => exact ih (unsigned_add h (unsigned_mul_self _))
  | case3 sum x xs y ys ih => exact ih (unsigned_add h (unsigned_mul_self _))

/-- A Euclidean distance carries no minus sign. -/
lemma unsigned_euclideanDistance (xs ys : List R) : Unsigned (euclideanDistance xs ys) :=
  unsigned_sqrt (unsigned_addSquaredDifferences unsigned_zero xs ys)

/-- Two sizes count alike if they are equal in case that they weigh, and else finite. -/
lemma weighted_eq {x x' weight : R} (hx : Unsigned x) (hx' : Unsigned x')
    (heq : Weighs weight → x = x') (hfinite : ¬Weighs weight → Scalar.isFinite x = true)
    (hfinite' : ¬Weighs weight → Scalar.isFinite x' = true) : x * weight = x' * weight := by
  by_cases hweighs : Weighs weight
  · rw [heq hweighs]
  · have hzero : Scalar.same weight 0 = true := Bool.not_eq_false _ ▸ hweighs
    rw [mul_of_same_zero hx (hfinite hweighs) hzero,
      mul_of_same_zero hx' (hfinite' hweighs) hzero]

/-- Vectors that are equal in case that they weigh are equally far apart. -/
lemma weighted_euclideanDistance_eq {xs xs' ys ys' : List R} {weight : R}
    (hx : Weighs weight → xs = xs') (hy : Weighs weight → ys = ys')
    (h : ¬Weighs weight → Scalar.isFinite (euclideanDistance xs ys) = true)
    (h' : ¬Weighs weight → Scalar.isFinite (euclideanDistance xs' ys') = true) :
    euclideanDistance xs ys * weight = euclideanDistance xs' ys' * weight := by
  refine weighted_eq (unsigned_euclideanDistance _ _) (unsigned_euclideanDistance _ _) ?_ h h'
  intro hweighs
  rw [hx hweighs, hy hweighs]

/-- Numbers that are equal in case that they weigh are equally far apart. -/
lemma weighted_abs_sub_eq {x x' y y' weight : R}
    (hx : Weighs weight → x = x') (hy : Weighs weight → y = y')
    (h : ¬Weighs weight → Scalar.isFinite (Scalar.abs (x - y)) = true)
    (h' : ¬Weighs weight → Scalar.isFinite (Scalar.abs (x' - y')) = true) :
    Scalar.abs (x - y) * weight = Scalar.abs (x' - y') * weight := by
  refine weighted_eq (unsigned_abs _) (unsigned_abs _) ?_ h h'
  intro hweighs
  rw [hx hweighs, hy hweighs]

section

variable {w : Weights R} {a a' b b' : Beat R}

/-- Beats that agree in what weighs are equally far apart. -/
theorem Beat.distance_congr (ha : a.AgreesOn w a') (hb : b.AgreesOn w b')
    (h : a.FinitelyApart w b) (h' : a'.FinitelyApart w b') :
    a.distance w b = a'.distance w b' := by
  unfold Beat.distance
  rw [weighted_euclideanDistance_eq ha.timbre hb.timbre h.timbre h'.timbre,
    weighted_euclideanDistance_eq ha.pitch hb.pitch h.pitch h'.pitch,
    weighted_abs_sub_eq ha.loudnessStart hb.loudnessStart h.loudnessStart h'.loudnessStart,
    weighted_abs_sub_eq ha.loudnessMax hb.loudnessMax h.loudnessMax h'.loudnessMax,
    weighted_abs_sub_eq ha.duration hb.duration h.duration h'.duration,
    weighted_abs_sub_eq ha.confidence hb.confidence h.confidence h'.confidence]

end

/-! ## Two scans -/

variable {o : GraphOptions R}

/-- The transition between two beats is as long as between the beats that they agree with. -/
lemma GraphOptions.length_congr {a a' b b' : Beat R} (ha : a.AgreesOn o.weights a')
    (hb : b.AgreesOn o.weights b') (h : a.FinitelyApart o.weights b)
    (h' : a'.FinitelyApart o.weights b') : o.length a b = o.length a' b' := by
  unfold GraphOptions.length
  rw [Beat.distance_congr ha hb h h', ha.index, hb.index]

namespace GraphScan

omit [UnsignedArithmetic R] in
/-- Of a pair, the scan only keeps how long the transition is. -/
lemma pair_congr {a a' b b' : Beat R} (h : o.length a b = o.length a' b') (i j : ℕ)
    (s : GraphScan R) : s.pair o i a j b = s.pair o i a' j b' := by
  unfold pair
  rw [h]

lemma row_congr {a a' : Beat R} {rest rest' : List (Beat R)} (ha : a.AgreesOn o.weights a')
    (hrest : List.Forall₂ (Beat.AgreesOn o.weights) rest rest')
    (h : ∀ b ∈ rest, a.FinitelyApart o.weights b)
    (h' : ∀ b ∈ rest', a'.FinitelyApart o.weights b) (i j : ℕ) (s : GraphScan R) :
    row o i a j rest s = row o i a' j rest' s := by
  induction hrest generalizing j s with
  | nil => rfl
  | @cons b b' rest rest' hb _ ih =>
    rw [List.forall_mem_cons] at h h'
    rw [row, row, pair_congr (o.length_congr ha hb h.1 h'.1)]
    exact ih h.2 h'.2 (j + 1) _

lemma rows_congr {beats beats' : List (Beat R)}
    (hbeats : List.Forall₂ (Beat.AgreesOn o.weights) beats beats')
    (h : beats.Pairwise (Beat.FinitelyApart o.weights))
    (h' : beats'.Pairwise (Beat.FinitelyApart o.weights)) (i : ℕ) (s : GraphScan R) :
    rows o i beats s = rows o i beats' s := by
  induction hbeats generalizing i s with
  | nil => rfl
  | @cons a a' rest rest' ha hrest ih =>
    rw [List.pairwise_cons] at h h'
    rw [rows, rows, row_congr ha hrest h.1 h'.1]
    exact ih h.2 h'.2 (i + 1) _

/-- Lists of beats that agree in what weighs are scanned alike. -/
theorem all_congr {beats beats' : List (Beat R)}
    (hbeats : List.Forall₂ (Beat.AgreesOn o.weights) beats beats')
    (h : beats.Pairwise (Beat.FinitelyApart o.weights))
    (h' : beats'.Pairwise (Beat.FinitelyApart o.weights)) : all o beats = all o beats' := by
  rw [all, all, hbeats.length_eq, rows_congr hbeats h h']

end GraphScan

end

/-! ## Two graphs -/

/-- Both lists of beats have a graph, with the same neighbors beat by beat and the same summary. -/
def ConnectedAlike (o : GraphOptions R) (beats beats' : List (Beat R)) : Prop :=
  ∃ connected connected' summary, buildGraph o beats = .ok (connected, summary)
    ∧ buildGraph o beats' = .ok (connected', summary)
    ∧ connected.map (·.neighbors) = connected'.map (·.neighbors)

/-- What was scanned alike is connected alike. -/
lemma connectedAlike_of_all {o : GraphOptions R} {beats beats' : List (Beat R)}
    (hcheck : checkBeats beats = .ok ()) (hcheck' : checkBeats beats' = .ok ())
    (hlen : 2 ≤ beats.length) (hlen' : beats.length = beats'.length)
    (hall : GraphScan.all o beats = GraphScan.all o beats') : ConnectedAlike o beats beats' := by
  obtain ⟨summary, hbuild⟩ := buildGraph_of_check (o := o) hcheck hlen
  obtain ⟨summary', hbuild'⟩ := buildGraph_of_check (o := o) hcheck' (hlen' ▸ hlen)
  have hsummary : summary' = summary := by
    rw [summary_of_buildGraph hbuild, summary_of_buildGraph hbuild', hlen', hall]
  refine ⟨_, _, summary, hbuild, hsummary ▸ hbuild', ?_⟩
  rw [map_neighbors_of_buildGraph hbuild, map_neighbors_of_buildGraph hbuild', hall]

/-- In exact arithmetic every two beats are finitely apart. -/
lemma Exact.finitelyApart (w : Weights Exact) (a b : Beat Exact) : a.FinitelyApart w b :=
  ⟨fun _ => rfl, fun _ => rfl, fun _ => rfl, fun _ => rfl, fun _ => rfl, fun _ => rfl⟩

/-- Good beats are connected by their indices and by the features that weigh, in exact arithmetic
and with doubles that stay finite: whatever else two lists of them differ in, vectors of different
lengths included, each beat gets the same neighbors at the same distances, and the summaries are
the same. -/
theorem buildGraph_ignores_unweighted :
    (∀ (o : GraphOptions Exact) (beats beats' : List (Beat Exact)),
      checkBeats beats = .ok () → checkBeats beats' = .ok () → 2 ≤ beats.length →
        List.Forall₂ (Beat.AgreesOn o.weights) beats beats' → ConnectedAlike o beats beats')
    ∧ ∀ (o : GraphOptions Float) (beats beats' : List (Beat Float)),
      checkBeats beats = .ok () → checkBeats beats' = .ok () → 2 ≤ beats.length →
        beats.Pairwise (Beat.FinitelyApart o.weights) →
        beats'.Pairwise (Beat.FinitelyApart o.weights) →
          List.Forall₂ (Beat.AgreesOn o.weights) beats beats' → ConnectedAlike o beats beats' := by
  constructor
  · intro o beats beats' hcheck hcheck' hlen hagree
    exact connectedAlike_of_all hcheck hcheck' hlen hagree.length_eq
      (GraphScan.all_congr hagree
        (List.pairwise_of_forall (Exact.finitelyApart o.weights))
        (List.pairwise_of_forall (Exact.finitelyApart o.weights)))
  · intro o beats beats' hcheck hcheck' hlen h h' hagree
    exact connectedAlike_of_all hcheck hcheck' hlen hagree.length_eq
      (GraphScan.all_congr hagree h h')

/-- Two beats like the twins, but later, of different lengths, with another timbre, and with no
neighbors from before. -/
def distantTwins : List (Beat Float) :=
  [⟨0, 3, 0.5, [4, 0, 2], [1], 0, 0, 1, #[]⟩, ⟨1, 7, 2, [], [1], 0, 0, 1, #[]⟩]

/-- Connections in bars of one beat, in which neither the timbre nor the duration weighs. -/
def pitchOptions : GraphOptions Float := ⟨60, ⟨0, 10, 1, 1, 0, 1⟩, 100, 1⟩

/-- The twins and the distant ones are the same where only pitch, loudness and confidence weigh. -/
theorem buildGraph_ignores_unweighted_twins :
    checkBeats twins = .ok () ∧ checkBeats distantTwins = .ok () ∧ 2 ≤ twins.length
      ∧ List.Forall₂ (Beat.AgreesOn pitchOptions.weights) twins distantTwins
      ∧ ConnectedAlike pitchOptions twins distantTwins
      ∧ (buildGraph pitchOptions distantTwins).map (·.2.edgeCount) = .ok 2 := by
  have hcheck : checkBeats twins = .ok () := by rfl
  have hcheck' : checkBeats distantTwins = .ok () := by rfl
  have hlen : 2 ≤ twins.length := by decide
  have hapart : twins.Pairwise (Beat.FinitelyApart pitchOptions.weights) := by
    refine List.pairwise_pair.mpr ⟨?_, ?_, ?_, ?_, ?_, ?_⟩ <;> exact fun _ => by decide +kernel
  have hapart' : distantTwins.Pairwise (Beat.FinitelyApart pitchOptions.weights) := by
    refine List.pairwise_pair.mpr ⟨?_, ?_, ?_, ?_, ?_, ?_⟩ <;> exact fun _ => by decide +kernel
  have htimbre : ¬Weighs pitchOptions.weights.timbre := by decide +kernel
  have hduration : ¬Weighs pitchOptions.weights.duration := by decide +kernel
  have hagree : List.Forall₂ (Beat.AgreesOn pitchOptions.weights) twins distantTwins := by
    refine .cons ?_ (.cons ?_ .nil)
    · exact ⟨rfl, (absurd · htimbre), fun _ => rfl, fun _ => rfl, fun _ => rfl,
        (absurd · hduration), fun _ => rfl⟩
    · exact ⟨rfl, (absurd · htimbre), fun _ => rfl, fun _ => rfl, fun _ => rfl,
        (absurd · hduration), fun _ => rfl⟩
  exact ⟨hcheck, hcheck', hlen, hagree,
    buildGraph_ignores_unweighted.2 pitchOptions twins distantTwins hcheck hcheck' hlen hapart
      hapart' hagree,
    by decide +kernel⟩

end EndlessRemix
