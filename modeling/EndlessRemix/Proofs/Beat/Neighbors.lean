import EndlessRemix.Beat.Graph
import EndlessRemix.Proofs.Number.Symmetry

/-!
# Neighbor lists of a graph

`buildGraph` measures every pair of beats once and appends to two lists at a time. Each list comes
out as the exhaustive scan would write it: every other beat that is near enough, in order.
-/

namespace EndlessRemix

variable {R : Type} [Scalar R]

/-! ## The measure in both directions -/

section

variable [SymmetricDifference R]

/-- The shorter vector goes on with zeros, on either side. -/
lemma addSquaredDifferences_nil (sum : R) (ys : List R) :
    addSquaredDifferences sum [] ys = addSquaredDifferences sum ys [] := by
  induction ys generalizing sum with
  | nil => rfl
  | cons y ys ih =>
    rw [addSquaredDifferences, List.foldl_cons, addSquaredDifferences,
      SymmetricDifference.sq_sub_comm, ← ih, addSquaredDifferences]

theorem addSquaredDifferences_comm (sum : R) (xs ys : List R) :
    addSquaredDifferences sum xs ys = addSquaredDifferences sum ys xs := by
  induction xs generalizing sum ys with
  | nil => exact addSquaredDifferences_nil sum ys
  | cons x xs ih =>
    cases ys with
    | nil => exact (addSquaredDifferences_nil sum (x :: xs)).symm
    | cons y ys =>
      rw [addSquaredDifferences, addSquaredDifferences, ih, SymmetricDifference.sq_sub_comm]

theorem euclideanDistance_comm (xs ys : List R) :
    euclideanDistance xs ys = euclideanDistance ys xs := by
  rw [euclideanDistance, addSquaredDifferences_comm, euclideanDistance]

theorem Beat.distance_comm (weights : Weights R) (a b : Beat R) :
    a.distance weights b = b.distance weights a := by
  unfold Beat.distance
  rw [euclideanDistance_comm a.timbre, euclideanDistance_comm a.pitch,
    SymmetricDifference.abs_sub_comm a.loudnessStart,
    SymmetricDifference.abs_sub_comm a.loudnessMax, SymmetricDifference.abs_sub_comm a.duration,
    SymmetricDifference.abs_sub_comm a.confidence]

omit [SymmetricDifference R] in
theorem barPenalty_comm (beatsPerBar penalty a b : R) :
    barPenalty beatsPerBar penalty a b = barPenalty beatsPerBar penalty b a := by
  unfold barPenalty Scalar.same
  rw [Bool.and_comm]

/-- A transition is as long as the one back. -/
theorem GraphOptions.length_comm (o : GraphOptions R) (a b : Beat R) :
    o.length a b = o.length b a := by
  rw [GraphOptions.length, Beat.distance_comm, barPenalty_comm, GraphOptions.length]

end

/-! ## The scan of all pairs -/

/-- What a beat at position `j` adds to the neighbors of another beat. -/
def GraphOptions.edge (o : GraphOptions R) (a b : Beat R) (j : ℕ) : List (Neighbor R) :=
  if o.length a b < o.threshold then [⟨.beat j, o.length a b⟩] else []

namespace GraphScan

/-- The neighbors of a position, as far as they are found. -/
def listAt (s : GraphScan R) (k : ℕ) : List (Neighbor R) := ((s.neighbors[k]?).getD #[]).toList

/-- Pushing to one list leaves the others alone. -/
lemma getD_modify_push {α : Type} (lists : Array (Array α)) {i : ℕ} (hi : i < lists.size) (x : α)
    (k : ℕ) :
    (((lists.modify i (·.push x))[k]?).getD #[]).toList
      = ((lists[k]?).getD #[]).toList ++ if k = i then [x] else [] := by
  rw [Array.getElem?_modify]
  by_cases h : i = k
  · subst h
    rw [if_pos rfl, if_pos rfl, Array.getElem?_eq_getElem hi]
    simp
  · rw [if_neg h, if_neg (Ne.symm h), List.append_nil]

variable (o : GraphOptions R)

@[simp]
lemma size_pair (i : ℕ) (a : Beat R) (j : ℕ) (b : Beat R) (s : GraphScan R) :
    (s.pair o i a j b).neighbors.size = s.neighbors.size := by
  unfold pair
  dsimp only
  split_ifs <;> simp

@[simp]
lemma size_row (i : ℕ) (a : Beat R) (j : ℕ) (rest : List (Beat R)) (s : GraphScan R) :
    (row o i a j rest s).neighbors.size = s.neighbors.size := by
  induction rest generalizing j s with
  | nil => rfl
  | cons b rest ih => rw [row, ih, size_pair]

@[simp]
lemma size_rows (i : ℕ) (rest : List (Beat R)) (s : GraphScan R) :
    (rows o i rest s).neighbors.size = s.neighbors.size := by
  induction rest generalizing i s with
  | nil => rfl
  | cons a rest ih => rw [rows, ih, size_row]

lemma size_all (beats : List (Beat R)) : (all o beats).neighbors.size = beats.length := by
  rw [all, size_rows, start, Array.size_replicate]

/-- A pair adds an edge at both of its positions, of the length measured once, and nothing
elsewhere. -/
lemma listAt_pair_once {i j : ℕ} {s : GraphScan R} (hi : i < s.neighbors.size)
    (hj : j < s.neighbors.size) (a b : Beat R) (k : ℕ) :
    (s.pair o i a j b).listAt k
      = s.listAt k ++ (if k = i then o.edge a b j else [])
        ++ if k = j then o.edge a b i else [] := by
  unfold pair GraphOptions.edge listAt
  by_cases h : o.length a b < o.threshold
  · rw [if_pos h, if_pos h, if_pos h]
    dsimp only
    rw [getD_modify_push _ (by simpa using hj), getD_modify_push _ hi]
  · rw [if_neg h, if_neg h, if_neg h, ite_self, ite_self, List.append_nil, List.append_nil]

variable [SymmetricDifference R]

/-- The edge at the later position is the one that its own beat has. -/
lemma listAt_pair {i j : ℕ} {s : GraphScan R} (hi : i < s.neighbors.size)
    (hj : j < s.neighbors.size) (a b : Beat R) (k : ℕ) :
    (s.pair o i a j b).listAt k
      = s.listAt k ++ (if k = i then o.edge a b j else [])
        ++ if k = j then o.edge b a i else [] := by
  rw [listAt_pair_once o hi hj, GraphOptions.edge, GraphOptions.edge, GraphOptions.edge,
    o.length_comm b a]

/-- A row adds the edges of its own beat to that beat's list. -/
lemma listAt_row_self {i j : ℕ} {rest : List (Beat R)} {s : GraphScan R} (hij : i < j)
    (hj : j + rest.length ≤ s.neighbors.size) (a : Beat R) :
    (row o i a j rest s).listAt i
      = s.listAt i ++ (rest.zipIdx j).flatMap fun b => o.edge a b.1 b.2 := by
  induction rest generalizing j s with
  | nil => rw [row, List.zipIdx_nil, List.flatMap_nil, List.append_nil]
  | cons b rest ih =>
    rw [List.length_cons] at hj
    rw [row, ih (by omega) (by rw [size_pair]; omega), listAt_pair o (by omega) (by omega),
      if_pos rfl, if_neg (by omega), List.append_nil, List.append_assoc, List.zipIdx_cons,
      List.flatMap_cons]

/-- A row adds at most one edge to the list of a later beat, and nothing before its own. -/
lemma listAt_row_of_ne {i j : ℕ} {rest : List (Beat R)} {s : GraphScan R} (hij : i < j)
    (hj : j + rest.length ≤ s.neighbors.size) (a : Beat R) {k : ℕ} (hk : k ≠ i) :
    (row o i a j rest s).listAt k
      = s.listAt k ++ if j ≤ k then (rest[k - j]?).toList.flatMap (o.edge · a i) else [] := by
  induction rest generalizing j s with
  | nil => simp [row]
  | cons b rest ih =>
    rw [List.length_cons] at hj
    rw [row, ih (by omega) (by rw [size_pair]; omega), listAt_pair o (by omega) (by omega),
      if_neg hk, List.append_nil, List.append_assoc]
    congr 1
    rcases lt_trichotomy k j with h | rfl | h
    · rw [if_neg (by omega), if_neg (by omega), if_neg (by omega), List.append_nil]
    · rw [if_pos rfl, if_neg (by omega), if_pos le_rfl, Nat.sub_self, List.append_nil]
      simp
    · obtain ⟨d, rfl⟩ : ∃ d, k = j + 1 + d := ⟨k - (j + 1), by omega⟩
      have hd : j + 1 + d - j = d + 1 := by omega
      rw [if_neg (by omega), if_pos (by omega), if_pos (by omega), List.nil_append, hd,
        List.getElem?_cons_succ, Nat.add_sub_cancel_left]

/-- The rows from a position on leave the lists before it alone. -/
lemma listAt_rows_of_lt {i : ℕ} {rest : List (Beat R)} {s : GraphScan R}
    (hi : i + rest.length ≤ s.neighbors.size) {k : ℕ} (hk : k < i) :
    (rows o i rest s).listAt k = s.listAt k := by
  induction rest generalizing i s with
  | nil => rfl
  | cons a rest ih =>
    rw [List.length_cons] at hi
    rw [rows, ih (by rw [size_row]; omega) (by omega),
      listAt_row_of_ne o (by omega) (by omega) a (by omega), if_neg (by omega), List.append_nil]

/-- The rows from a position on add to the list of each of their beats its edges with all the
others, in order. -/
lemma listAt_rows {i p : ℕ} {rest : List (Beat R)} {s : GraphScan R} {b : Beat R}
    (hi : i + rest.length ≤ s.neighbors.size) (hp : rest[p]? = some b) :
    (rows o i rest s).listAt (i + p)
      = s.listAt (i + p)
        ++ (rest.zipIdx i).flatMap fun c => if c.2 = i + p then [] else o.edge b c.1 c.2 := by
  induction rest generalizing i p s with
  | nil => cases hp
  | cons a rest ih =>
    rw [List.length_cons] at hi
    rw [rows, List.zipIdx_cons, List.flatMap_cons]
    cases p with
    | zero =>
      -- the row of the beat itself; later rows do not come back to it
      obtain rfl : a = b := by simpa using hp
      have hother : ∀ c ∈ rest.zipIdx (i + 1),
          o.edge a c.1 c.2 = if c.2 = i then [] else o.edge a c.1 c.2 := by
        intro c hc
        have hm : i + 1 ≤ c.2 := (List.mem_zipIdx hc).1
        rw [if_neg (by omega)]
      simp only [add_zero, if_true]
      rw [listAt_rows_of_lt o (by rw [size_row]; omega) (by omega),
        listAt_row_self o (by omega) (by omega), List.nil_append,
        List.flatMap_congr hother]
    | succ p =>
      -- the row of an earlier beat, and then the rows after it
      have hk : i + (p + 1) = i + 1 + p := by omega
      have hkp : i + 1 + p - (i + 1) = p := by omega
      rw [List.getElem?_cons_succ] at hp
      have hother : ¬i = i + 1 + p := by omega
      rw [hk, ih (by rw [size_row]; omega) hp,
        listAt_row_of_ne o (by omega) (by omega) a (by omega), if_pos (by omega), hkp, hp,
        if_neg hother, List.append_assoc, Option.toList_some, List.flatMap_singleton]

/-- The scan of all pairs finds the neighbors by definition. -/
theorem listAt_all {beats : List (Beat R)} {i : ℕ} {a : Beat R} (h : beats[i]? = some a) :
    (all o beats).listAt i = neighborsIn o beats i a := by
  have hstart : (start beats.length : GraphScan R).listAt i = [] := by
    unfold start listAt
    rw [Array.getElem?_replicate]
    split_ifs <;> rfl
  have hrows := listAt_rows o (i := 0) (s := start beats.length)
    (by rw [start, Array.size_replicate, Nat.zero_add]) h
  rw [Nat.zero_add] at hrows
  rw [all, hrows, hstart, List.nil_append, neighborsIn, List.filterMap_eq_flatMap_toList]
  apply List.flatMap_congr
  intro c _
  unfold GraphOptions.edge
  by_cases hm : c.2 = i
  · simp [hm]
  · by_cases hl : o.length a c.1 < o.threshold <;> simp [hm, hl]

end GraphScan

/-! ## Neighbors by definition -/

/-- One destination is a beat before the other. -/
def Destination.Before : Destination R → Destination R → Prop
  | .beat p, .beat q => p < q
  | _, _ => False

section

variable {o : GraphOptions R} {beats : List (Beat R)} {i j : ℕ} {a b : Beat R}

/-- The neighbors are the other beats below the threshold. -/
theorem mem_neighborsIn {n : Neighbor R} :
    n ∈ neighborsIn o beats i a ↔ ∃ j b, beats[j]? = some b ∧ j ≠ i ∧
      o.length a b < o.threshold ∧ n = ⟨.beat j, o.length a b⟩ := by
  rw [neighborsIn, List.mem_filterMap]
  constructor
  · rintro ⟨⟨b, j⟩, hb, hn⟩
    rw [List.mem_zipIdx_iff_getElem?] at hb
    dsimp only at hn
    split_ifs at hn with h
    exact ⟨j, b, hb, h.1, h.2, (Option.some.inj hn).symm⟩
  · rintro ⟨j, b, hb, hj, hl, rfl⟩
    refine ⟨(b, j), List.mem_zipIdx_iff_getElem?.mpr hb, ?_⟩
    exact if_pos ⟨hj, hl⟩

/-- A beat is a neighbor at a distance exactly if the distance is theirs and below the threshold. -/
theorem beat_mem_neighborsIn {d : R} (hb : beats[j]? = some b) :
    ⟨.beat j, d⟩ ∈ neighborsIn o beats i a ↔ j ≠ i ∧ d = o.length a b ∧ d < o.threshold := by
  rw [mem_neighborsIn]
  constructor
  · rintro ⟨k, c, hc, hk, hl, heq⟩
    obtain ⟨hjk, rfl⟩ := Neighbor.mk.inj heq
    obtain rfl := Destination.beat.inj hjk
    obtain rfl : c = b := Option.some.inj (hc.symm.trans hb)
    exact ⟨hk, rfl, hl⟩
  · rintro ⟨hj, rfl, hl⟩
    exact ⟨j, b, hb, hj, hl, rfl⟩

/-- Neighbors come in the order of their positions. -/
theorem pairwise_neighborsIn :
    (neighborsIn o beats i a).Pairwise fun m n => m.dest.Before n.dest := by
  rw [neighborsIn, List.pairwise_filterMap]
  have hidx : beats.zipIdx.Pairwise fun b c => b.2 < c.2 := by
    rw [← List.pairwise_map (f := Prod.snd), List.zipIdx_map_snd]
    exact List.pairwise_lt_range'
  refine hidx.imp ?_
  rintro ⟨b, p⟩ ⟨c, q⟩ hlt m hm n hn
  dsimp only at hm hn
  split_ifs at hm hn
  rw [← Option.some.inj hm, ← Option.some.inj hn]
  exact hlt

end

/-! ## The graph -/

section

variable {o : GraphOptions R} {beats connected : List (Beat R)} {summary : GraphSummary R}

/-- At least two beats that obey the rules can be connected. -/
theorem buildGraph_of_check (hcheck : checkBeats beats = .ok ()) (hlen : 2 ≤ beats.length) :
    ∃ summary, buildGraph o beats
      = .ok (withNeighbors beats (GraphScan.all o beats).neighbors, summary) := by
  have hne : ¬beats.isEmpty = true := by
    rw [List.isEmpty_iff]
    rintro rfl
    simp at hlen
  have hlt : ¬beats.length < 2 := by omega
  unfold buildGraph
  rw [hcheck, if_neg hne, if_neg hlt]
  exact ⟨_, rfl⟩

/-- What is connected obeys the rules, is at least two beats, and has the neighbors of the scan. -/
theorem of_buildGraph (h : buildGraph o beats = .ok (connected, summary)) :
    checkBeats beats = .ok () ∧ 2 ≤ beats.length
      ∧ connected = withNeighbors beats (GraphScan.all o beats).neighbors := by
  unfold buildGraph at h
  by_cases hne : beats.isEmpty = true
  · rw [if_pos hne] at h
    cases h
  rw [if_neg hne] at h
  cases hcheck : checkBeats beats with
  | error fault =>
    rw [hcheck] at h
    cases h
  | ok u =>
    rw [hcheck] at h
    by_cases hlt : beats.length < 2
    · rw [if_pos hlt] at h
      cases h
    · rw [if_neg hlt] at h
      exact ⟨rfl, by omega, (Prod.mk.inj (Except.ok.inj h)).1.symm⟩

/-- A graph cannot be built of no beats, of beats that break a rule, and of a lone beat. -/
lemma of_buildGraph_eq_error {fault : GraphFault R}
    (h : buildGraph o beats = .error fault) :
    (beats = [] ∧ fault = .noBeats)
      ∨ (∃ rule, checkBeats beats = .error rule ∧ fault = .beats rule)
      ∨ checkBeats beats = .ok () ∧ (∃ beat, beats = [beat]) ∧ fault = .tooFewBeats 1 := by
  by_cases hempty : beats.isEmpty = true
  · rw [buildGraph, if_pos hempty] at h
    exact .inl ⟨List.isEmpty_iff.mp hempty, (Except.error.inj h).symm⟩
  right
  cases hcheck : checkBeats beats with
  | error rule =>
    rw [buildGraph, if_neg hempty, hcheck] at h
    exact .inl ⟨rule, rfl, (Except.error.inj h).symm⟩
  | ok u =>
    right
    unfold buildGraph at h
    rw [if_neg hempty, hcheck] at h
    by_cases hfew : beats.length < 2
    · have hone : beats.length = 1 := by
        have hpos := List.length_pos_iff.mpr (mt List.isEmpty_iff.mpr hempty)
        omega
      refine ⟨rfl, List.length_eq_one_iff.mp hone, ?_⟩
      rw [if_pos hfew] at h
      rw [← Except.error.inj h, hone]
    · rw [if_neg hfew] at h
      cases h

/-- The scan gives every beat a list. -/
lemma length_withNeighbors :
    (withNeighbors beats (GraphScan.all o beats).neighbors).length = beats.length := by
  have hsize : (GraphScan.all o beats).neighbors.toList.length = beats.length :=
    GraphScan.size_all o beats
  rw [withNeighbors, List.length_zipWith, hsize, min_self]

variable [SymmetricDifference R]

/-- Each beat is given its neighbors by definition. -/
theorem getElem?_withNeighbors {i : ℕ} {a : Beat R} (h : beats[i]? = some a) :
    (withNeighbors beats (GraphScan.all o beats).neighbors)[i]?
      = some { a with neighbors := (neighborsIn o beats i a).toArray } := by
  have hlt : i < (GraphScan.all o beats).neighbors.size := by
    rw [GraphScan.size_all]
    exact (List.getElem?_eq_some_iff.mp h).1
  have hlist := GraphScan.listAt_all o h
  rw [GraphScan.listAt, Array.getElem?_eq_getElem hlt, Option.getD_some] at hlist
  rw [withNeighbors, List.getElem?_zipWith, h, Array.getElem?_toList,
    Array.getElem?_eq_getElem hlt, ← hlist]

end

/-! ## What the beats carried before -/

/-- The same beats, whatever neighbors they carry. -/
def SameBeats (beats beats' : List (Beat R)) : Prop :=
  withoutNeighbors beats = withoutNeighbors beats'

namespace GraphScan

variable (o : GraphOptions R)

lemma row_withoutNeighbors (i : ℕ) (a : Beat R) (j : ℕ) (rest : List (Beat R))
    (s : GraphScan R) :
    row o i { a with neighbors := #[] } j (withoutNeighbors rest) s = row o i a j rest s := by
  induction rest generalizing j s with
  | nil => rfl
  | cons b rest ih => exact ih (j + 1) (s.pair o i a j b)

lemma rows_withoutNeighbors (i : ℕ) (rest : List (Beat R)) (s : GraphScan R) :
    rows o i (withoutNeighbors rest) s = rows o i rest s := by
  induction rest generalizing i s with
  | nil => rfl
  | cons a rest ih =>
    rw [rows, ← ih, ← row_withoutNeighbors]
    rfl

end GraphScan

lemma checkBeatsAfter_withoutNeighbors (previous : Beat R) (position : ℕ)
    (rest : List (Beat R)) :
    checkBeatsAfter { previous with neighbors := #[] } position (withoutNeighbors rest)
      = checkBeatsAfter previous position rest := by
  induction rest generalizing previous position with
  | nil => rfl
  | cons b rest ih =>
    rw [checkBeatsAfter, ← ih]
    rfl

lemma checkBeats_withoutNeighbors (beats : List (Beat R)) :
    checkBeats (withoutNeighbors beats) = checkBeats beats := by
  cases beats with
  | nil => rfl
  | cons b rest =>
    rw [checkBeats, ← checkBeatsAfter_withoutNeighbors]
    rfl

/-- The graph of beats is the graph of the beats without neighbors. -/
theorem buildGraph_withoutNeighbors (o : GraphOptions R) (beats : List (Beat R)) :
    buildGraph o (withoutNeighbors beats) = buildGraph o beats := by
  have hlen : (withoutNeighbors beats).length = beats.length := List.length_map _
  have hempty : (withoutNeighbors beats).isEmpty = beats.isEmpty := by
    rw [withoutNeighbors, List.isEmpty_map]
  have hall : GraphScan.all o (withoutNeighbors beats) = GraphScan.all o beats := by
    rw [GraphScan.all, GraphScan.rows_withoutNeighbors, hlen, GraphScan.all]
  have hwith : ∀ lists,
      withNeighbors (withoutNeighbors beats) lists = withNeighbors beats lists := by
    intro lists
    rw [withNeighbors, withoutNeighbors, List.zipWith_map_left, withNeighbors]
  unfold buildGraph
  simp only [hempty, checkBeats_withoutNeighbors, hlen, hall, hwith]

/-! ## The one-pass build -/

/-- The graph of at least two good beats is the exhaustive one, whatever neighbors the beats carry
beforehand: each beat's list holds every other beat at a length below the threshold, once and in
order of position, and two beats list each other with the same distance. -/
theorem buildGraph_exhaustive (o : GraphOptions Float) (beats : List (Beat Float))
    (hcheck : checkBeats beats = .ok ()) (hlen : 2 ≤ beats.length) :
    ∃ connected summary, buildGraph o beats = .ok (connected, summary)
      ∧ connected.length = beats.length
      ∧ (∀ beats', SameBeats beats' beats → buildGraph o beats' = .ok (connected, summary))
      ∧ ∀ i a, beats[i]? = some a → ∃ list : Array (Neighbor Float),
          connected[i]? = some { a with neighbors := list }
          ∧ list.toList = neighborsIn o beats i a
          ∧ list.toList.Pairwise (fun m n => m.dest.Before n.dest)
          ∧ (∀ n ∈ list, ∃ j, n.dest = .beat j ∧ j < beats.length)
          ∧ ∀ j b d, beats[j]? = some b →
              ((⟨.beat j, d⟩ ∈ list ↔ j ≠ i
                  ∧ d = a.distance o.weights b
                      + barPenalty o.beatsPerBar o.phasePenalty a.index b.index
                  ∧ d < o.threshold)
                ∧ ∀ back, connected[j]? = some back →
                    (⟨.beat j, d⟩ ∈ list ↔ ⟨.beat i, d⟩ ∈ back.neighbors)) := by
  obtain ⟨summary, hbuild⟩ := buildGraph_of_check (o := o) hcheck hlen
  refine ⟨_, summary, hbuild, length_withNeighbors, ?_, ?_⟩
  · intro beats' hsame
    rw [← buildGraph_withoutNeighbors, hsame, buildGraph_withoutNeighbors, hbuild]
  · intro i a ha
    refine ⟨(neighborsIn o beats i a).toArray, getElem?_withNeighbors ha, rfl,
      pairwise_neighborsIn, ?_, ?_⟩
    · intro n hn
      obtain ⟨j, b, hb, -, -, rfl⟩ := mem_neighborsIn.mp (List.mem_toArray.mp hn)
      exact ⟨j, rfl, (List.getElem?_eq_some_iff.mp hb).1⟩
    · intro j b d hb
      refine ⟨List.mem_toArray.trans (beat_mem_neighborsIn hb), ?_⟩
      intro back hback
      rw [getElem?_withNeighbors hb] at hback
      rw [← Option.some.inj hback, List.mem_toArray, List.mem_toArray, beat_mem_neighborsIn hb,
        beat_mem_neighborsIn ha, o.length_comm b a, ne_comm]

/-- Two beats that sound alike, a second apart; the first carries a stale neighbor. -/
def twins : List (Beat Float) :=
  [⟨0, 0, 1, [1], [1], 0, 0, 1, #[⟨.beat 0, 7⟩]⟩, ⟨1, 1, 1, [1, 0], [1], 0, 0, 1, #[]⟩]

/-- Five beats of a second with timbres at several distances; the last, far from all others, carries
a stale neighbor. -/
def scattered : List (Beat Float) :=
  [⟨0, 0, 1, [0], [1], 0, 0, 1, #[]⟩, ⟨1, 1, 1, [30], [1], 0, 0, 1, #[]⟩,
    ⟨2, 2, 1, [70], [1], 0, 0, 1, #[]⟩, ⟨3, 3, 1, [10], [1], 0, 0, 1, #[]⟩,
    ⟨4, 4, 1, [200], [1], 0, 0, 1, #[⟨.beat 0, 7⟩]⟩]

/-- In bars of one beat the scattered beats have up to three neighbors, in order of position and not
of length. The third and the fourth are at the threshold itself and stay apart. -/
theorem buildGraph_exhaustive_scattered :
    checkBeats scattered = .ok () ∧ 2 ≤ scattered.length
      ∧ ∃ connected summary,
          buildGraph ⟨60, Weights.standard, 100, 1⟩ scattered = .ok (connected, summary)
          ∧ connected.map (fun beat => beat.neighbors.toList)
            = [[⟨.beat 1, 30⟩, ⟨.beat 3, 10⟩], [⟨.beat 0, 30⟩, ⟨.beat 2, 40⟩, ⟨.beat 3, 20⟩],
              [⟨.beat 1, 40⟩], [⟨.beat 0, 10⟩, ⟨.beat 1, 20⟩], []] := by
  have hcheck : checkBeats scattered = .ok () := by rfl
  have hlen : 2 ≤ scattered.length := by decide
  obtain ⟨connected, summary, hbuild, hlength, -, hlists⟩ :=
    buildGraph_exhaustive ⟨60, Weights.standard, 100, 1⟩ scattered hcheck hlen
  have hneighbors : connected.map (fun beat => beat.neighbors.toList)
      = scattered.mapIdx (neighborsIn ⟨60, Weights.standard, 100, 1⟩ scattered) := by
    refine List.ext_getElem? fun i => ?_
    rw [List.getElem?_map, List.getElem?_mapIdx]
    cases ha : scattered[i]? with
    | none =>
      rw [List.getElem?_eq_none (hlength ▸ List.getElem?_eq_none_iff.mp ha)]
      rfl
    | some a =>
      obtain ⟨list, hget, heq, -⟩ := hlists i a ha
      rw [hget]
      exact congrArg some heq
  refine ⟨hcheck, hlen, connected, summary, hbuild, hneighbors.trans ?_⟩
  decide +kernel

end EndlessRemix
