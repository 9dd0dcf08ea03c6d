import EndlessRemix.Proofs.Beat.Neighbors

/-!
# How many edges a graph has

Each connected pair is counted as two edges and recorded in two lists. So the lists together are as
long as the count, whatever pairs were scanned, and a graph has no edge exactly if no beat has a
neighbor.
-/

namespace EndlessRemix

variable {R : Type} [Scalar R]

namespace GraphScan

/-! ## The scan of all pairs -/

section

variable {o : GraphOptions R} {P : GraphScan R → Prop} {count : ℕ}

/-- A row keeps what each of its pairs keeps. -/
lemma row_induction (hpair : ∀ (s : GraphScan R) (i : ℕ) (a : Beat R) (j : ℕ) (b : Beat R),
      s.neighbors.size = count → i < count → j < count → P s → P (s.pair o i a j b))
    {i j : ℕ} {a : Beat R} {rest : List (Beat R)} {s : GraphScan R} (hsize : s.neighbors.size = count)
    (hi : i < count) (hj : j + rest.length ≤ count) (h : P s) : P (row o i a j rest s) := by
  induction rest generalizing j s with
  | nil => exact h
  | cons b rest ih =>
    rw [List.length_cons] at hj
    rw [row]
    refine ih ?_ (by omega) (hpair s i a j b hsize hi (by omega) h)
    rw [size_pair, hsize]

lemma rows_induction (hpair : ∀ (s : GraphScan R) (i : ℕ) (a : Beat R) (j : ℕ) (b : Beat R),
      s.neighbors.size = count → i < count → j < count → P s → P (s.pair o i a j b))
    {i : ℕ} {rest : List (Beat R)} {s : GraphScan R} (hsize : s.neighbors.size = count)
    (hi : i + rest.length ≤ count) (h : P s) : P (rows o i rest s) := by
  induction rest generalizing i s with
  | nil => exact h
  | cons a rest ih =>
    rw [List.length_cons] at hi
    rw [rows]
    refine ih ?_ (by omega) (row_induction hpair hsize (by omega) (by omega) h)
    rw [size_row, hsize]

/-- What holds before any pair is scanned, and is kept by every pair, holds when all are scanned. -/
theorem all_induction {beats : List (Beat R)} (hstart : P (start beats.length))
    (hpair : ∀ (s : GraphScan R) (i : ℕ) (a : Beat R) (j : ℕ) (b : Beat R),
      s.neighbors.size = beats.length → i < beats.length → j < beats.length → P s →
        P (s.pair o i a j b)) : P (all o beats) := by
  refine rows_induction hpair ?_ ?_ hstart
  · rw [start, Array.size_replicate]
  · rw [Nat.zero_add]

end

/-- The neighbors in all lists, one list after the other. -/
def edges (s : GraphScan R) : List (Neighbor R) := s.neighbors.toList.flatMap Array.toList

lemma edges_start (count : ℕ) : (start count : GraphScan R).edges = [] := by
  simp [edges, start]

/-- Pushing to one list adds one entry to all of them together. -/
lemma perm_flatMap_modify_push {α : Type} (lists : List (Array α)) {i : ℕ} (hi : i < lists.length)
    (x : α) :
    ((lists.modify i (·.push x)).flatMap Array.toList).Perm (x :: lists.flatMap Array.toList) := by
  induction lists generalizing i with
  | nil => cases hi
  | cons list rest ih =>
    cases i with
    | zero =>
      rw [List.modify_zero_cons, List.flatMap_cons, List.flatMap_cons, Array.toList_push,
        List.append_assoc]
      exact List.perm_middle
    | succ i =>
      rw [List.modify_succ_cons, List.flatMap_cons, List.flatMap_cons]
      exact ((ih (Nat.lt_of_succ_lt_succ hi)).append_left _).trans List.perm_middle

/-- A pair that is connected is recorded at both of its positions. -/
lemma perm_edges_pair {o : GraphOptions R} {i j : ℕ} {s : GraphScan R} {a b : Beat R}
    (hi : i < s.neighbors.size) (hj : j < s.neighbors.size) (h : o.length a b < o.threshold) :
    (s.pair o i a j b).edges.Perm
      (⟨.beat i, o.length a b⟩ :: ⟨.beat j, o.length a b⟩ :: s.edges) := by
  unfold pair edges
  dsimp only
  rw [if_pos h, Array.toList_modify, Array.toList_modify]
  have hlater := perm_flatMap_modify_push
    (s.neighbors.toList.modify i (·.push ⟨.beat j, o.length a b⟩)) (i := j) (by simpa using hj)
    ⟨.beat i, o.length a b⟩
  exact hlater.trans ((perm_flatMap_modify_push _ (by simpa using hi) _).cons _)

/-- The tally after a pair that is connected, and after one that is not. -/
lemma tally_pair (o : GraphOptions R) (i : ℕ) (a : Beat R) (j : ℕ) (b : Beat R) (s : GraphScan R) :
    (s.pair o i a j b).tally
      = if o.length a b < o.threshold then s.tally.addPair (o.length a b) else s.tally := by
  unfold pair
  dsimp only
  split_ifs <;> rfl

lemma edges_pair_of_not_lt {o : GraphOptions R} {a b : Beat R} (h : ¬o.length a b < o.threshold)
    (i j : ℕ) (s : GraphScan R) : (s.pair o i a j b).edges = s.edges := by
  unfold pair
  dsimp only
  rw [if_neg h]

/-- The scan records every edge that it counts. -/
theorem length_edges_all (o : GraphOptions R) (beats : List (Beat R)) :
    (all o beats).edges.length = (all o beats).tally.count := by
  refine all_induction (P := fun s => s.edges.length = s.tally.count) ?_ ?_
  · rw [edges_start]
    rfl
  · intro s i a j b hsize hi hj hcount
    rw [tally_pair]
    by_cases h : o.length a b < o.threshold
    · rw [if_pos h, (perm_edges_pair (hsize ▸ hi) (hsize ▸ hj) h).length_eq, List.length_cons,
        List.length_cons, hcount]
      rfl
    · rw [if_neg h, edges_pair_of_not_lt h, hcount]

end GraphScan

/-! ## The graph -/

/-- The neighbors of all beats, one beat after the other. -/
def edgesOf (beats : List (Beat R)) : List (Neighbor R) := beats.flatMap (·.neighbors.toList)

section

variable {o : GraphOptions R} {beats connected : List (Beat R)} {summary : GraphSummary R}

/-- A graph is summarized by what its scan counts. -/
lemma summary_of_buildGraph (h : buildGraph o beats = .ok (connected, summary)) :
    summary =
      { beatCount := beats.length
        edgeCount := (GraphScan.all o beats).tally.count
        threshold := o.threshold
        branchingBeats := (GraphScan.all o beats).neighbors.toList.countP fun list => !list.isEmpty
        distances := (GraphScan.all o beats).tally.range } := by
  obtain ⟨hcheck, hlen, -⟩ := of_buildGraph h
  have hne : ¬beats.isEmpty = true := by
    rw [List.isEmpty_iff]
    rintro rfl
    simp at hlen
  unfold buildGraph at h
  rw [if_neg hne, hcheck, if_neg (by omega : ¬beats.length < 2)] at h
  exact (Prod.mk.inj (Except.ok.inj h)).2.symm

/-- The beats of a graph have the lists of its scan. -/
lemma map_neighbors_of_buildGraph (h : buildGraph o beats = .ok (connected, summary)) :
    connected.map (·.neighbors) = (GraphScan.all o beats).neighbors.toList := by
  obtain ⟨-, -, rfl⟩ := of_buildGraph h
  rw [withNeighbors, List.map_zipWith]
  apply List.ext_getElem
  · simp [GraphScan.size_all]
  · intro i h1 h2
    simp

/-- The edges of a graph are those that its scan has found. -/
lemma edgesOf_of_buildGraph (h : buildGraph o beats = .ok (connected, summary)) :
    edgesOf connected = (GraphScan.all o beats).edges := by
  rw [GraphScan.edges, ← map_neighbors_of_buildGraph h, List.flatMap_map, edgesOf]

/-- A graph has as many edges as its beats have neighbors. -/
theorem edgeCount_of_buildGraph (h : buildGraph o beats = .ok (connected, summary)) :
    summary.edgeCount = (connected.map fun beat => beat.neighbors.size).sum := by
  have hlength : (edgesOf connected).length = (connected.map fun beat => beat.neighbors.size).sum :=
    List.length_flatMap
  rw [summary_of_buildGraph h, ← hlength, edgesOf_of_buildGraph h, GraphScan.length_edges_all]

/-- The beats that branch are those with a neighbor. -/
theorem branchingBeats_of_buildGraph (h : buildGraph o beats = .ok (connected, summary)) :
    summary.branchingBeats = connected.countP fun beat => !beat.neighbors.isEmpty := by
  rw [summary_of_buildGraph h, ← map_neighbors_of_buildGraph h, List.countP_map]
  rfl

omit [Scalar R] in
/-- Beats have no neighbors together if none of them has one. -/
lemma sum_size_neighbors_eq_zero :
    (beats.map fun beat => beat.neighbors.size).sum = 0 ↔ ∀ beat ∈ beats, beat.neighbors = #[] := by
  rw [List.sum_eq_zero_iff, List.forall_mem_map]
  exact forall₂_congr fun beat _ => Array.size_eq_zero_iff

end

end EndlessRemix
