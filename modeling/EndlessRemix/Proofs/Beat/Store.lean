import EndlessRemix.Beat.Store
import EndlessRemix.Proofs.Beat.Edges
import EndlessRemix.Proofs.Beat.Sequence
import EndlessRemix.Proofs.Number.Value

/-!
# Building where the beats are

A build in a store does what `buildGraph` does with a list: the beats under the names are connected
alike, and the summary is the same. This takes different names, since a beat with two positions
would get the edges of both; and good beats have different names, since they start one after the
other.
-/

namespace EndlessRemix

variable {ι R : Type} [DecidableEq ι]

namespace BeatStore

variable {store : BeatStore ι R} {names : List ι} {lists : Array (Array (Neighbor R))}

/-! ## Lists by position -/

/-- The store in which the beats under the names have the lists at the positions of the names. -/
def withLists (store : BeatStore ι R) (names : List ι) (lists : Array (Array (Neighbor R))) :
    BeatStore ι R := fun name =>
  match lists[names.idxOf name]? with
  | some neighbors => { store name with neighbors }
  | none => store name

lemma withLists_of_getElem? {name : ι} {neighbors : Array (Neighbor R)}
    (h : lists[names.idxOf name]? = some neighbors) :
    store.withLists names lists name = { store name with neighbors } := by
  rw [withLists, h]

lemma withLists_of_notMem (hsize : lists.size = names.length) {name : ι} (h : name ∉ names) :
    store.withLists names lists name = store name := by
  have hnone : lists[names.idxOf name]? = none := by
    rw [List.idxOf_eq_length h, ← hsize]
    exact Array.getElem?_eq_none le_rfl
  rw [withLists, hnone]

/-- The position of a name, if it has only one. -/
lemma idxOf_eq (hnodup : names.Nodup) {i : ℕ} {name : ι} (h : names[i]? = some name) :
    names.idxOf name = i := by
  obtain ⟨hi, rfl⟩ := List.getElem?_eq_some_iff.mp h
  exact hnodup.idxOf_getElem i hi

lemma clear_apply (name : ι) : store.clear names name
    = if name ∈ names then { store name with neighbors := #[] } else store name := by
  induction names generalizing store with
  | nil => rfl
  | cons first rest ih =>
    rw [clear, ih, setNeighbors, put]
    by_cases hfirst : name = first
    · subst hfirst
      simp
    · simp [hfirst]

/-- Empty lists are lists. -/
lemma clear_eq : store.clear names = store.withLists names (.replicate names.length #[]) := by
  funext name
  rw [clear_apply]
  split_ifs with hmem
  · refine (withLists_of_getElem? ?_).symm
    rw [Array.getElem?_replicate, if_pos (List.idxOf_lt_length_iff.mpr hmem)]
  · exact (withLists_of_notMem Array.size_replicate hmem).symm

/-- A neighbor more for a name is one more at its position. -/
lemma push_withLists (hnodup : names.Nodup) {i : ℕ} {name : ι} (h : names[i]? = some name)
    (hi : i < lists.size) (n : Neighbor R) : (store.withLists names lists).push name n
      = store.withLists names (lists.modify i (·.push n)) := by
  have hindex := idxOf_eq hnodup h
  funext other
  rw [push, setNeighbors, put]
  split_ifs with hother
  · subst hother
    have hlist : lists[names.idxOf other]? = some lists[i] := by
      rw [hindex, Array.getElem?_eq_getElem hi]
    rw [withLists_of_getElem? hlist]
    have hmodify : (lists.modify i (·.push n))[names.idxOf other]? = some (lists[i].push n) := by
      rw [Array.getElem?_modify, hlist, hindex, if_pos rfl, Option.map_some]
    rw [withLists_of_getElem? hmodify]
  · -- a name that has the position is the name
    have hne : i ≠ names.idxOf other := by
      rintro rfl
      have hmem : other ∈ names := by
        by_contra hmem
        rw [List.idxOf_eq_length hmem, List.getElem?_eq_none le_rfl] at h
        cases h
      rw [List.getElem?_idxOf hmem] at h
      exact hother (Option.some.inj h)
    rw [withLists, withLists, Array.getElem?_modify, if_neg hne]

/-- In the order of the names, the beats have the lists in their order. -/
lemma map_withLists (hnodup : names.Nodup) (hsize : lists.size = names.length) :
    names.map (store.withLists names lists) = withNeighbors (names.map store) lists := by
  refine List.ext_getElem? fun i => ?_
  rw [withNeighbors, List.getElem?_zipWith, List.getElem?_map, List.getElem?_map,
    @Array.getElem?_toList _ lists]
  cases hname : names[i]? with
  | none => rfl
  | some name =>
    have hi : i < lists.size := hsize ▸ (List.getElem?_eq_some_iff.mp hname).1
    have hlist : lists[i]? = some lists[i] := Array.getElem?_eq_getElem hi
    have hlist' : lists[names.idxOf name]? = some lists[i] := by rw [idxOf_eq hnodup hname, hlist]
    rw [Option.map_some, Option.map_some, hlist, withLists_of_getElem? hlist']

end BeatStore

/-! ## The scan -/

variable [Scalar R] {o : GraphOptions R} {names : List ι} {store : BeatStore ι R}

/-- A scan by positions, as one of the store. -/
def GraphScan.inStore (s : GraphScan R) (store : BeatStore ι R) (names : List ι) : StoreScan ι R :=
  ⟨store.withLists names s.neighbors, s.tally⟩

namespace StoreScan

/-- Other neighbors do not make a transition longer. -/
lemma length_withLists (lists : Array (Array (Neighbor R))) (a b : ι) :
    o.length (store.withLists names lists a) (store.withLists names lists b)
      = o.length (store a) (store b) := by
  unfold BeatStore.withLists
  cases lists[names.idxOf a]? <;> cases lists[names.idxOf b]? <;> rfl

variable {s : GraphScan R} {i j : ℕ}

lemma pair_inStore (hnodup : names.Nodup) (hsize : s.neighbors.size = names.length) {a b : ι}
    (ha : names[i]? = some a) (hb : names[j]? = some b) :
    (s.inStore store names).pair o i a j b
      = (s.pair o i (store a) j (store b)).inStore store names := by
  have hi : i < s.neighbors.size := hsize ▸ (List.getElem?_eq_some_iff.mp ha).1
  have hj : j < s.neighbors.size := hsize ▸ (List.getElem?_eq_some_iff.mp hb).1
  unfold pair GraphScan.pair GraphScan.inStore
  dsimp only
  -- the beats carry lists by now, but their features are those of the store
  rw [length_withLists]
  split_ifs with hlt
  · rw [BeatStore.push_withLists hnodup ha hi,
      BeatStore.push_withLists hnodup hb (by rwa [Array.size_modify])]
  · rfl

lemma row_inStore (hnodup : names.Nodup) (hsize : s.neighbors.size = names.length) {a : ι}
    (ha : names[i]? = some a) {rest : List ι} (hrest : names.drop j = rest) :
    row o i a j rest (s.inStore store names)
      = (s.row o i (store a) j (rest.map store)).inStore store names := by
  induction rest generalizing j s with
  | nil => rfl
  | cons b rest ih =>
    have hb : names[j]? = some b := by rw [← List.head?_drop, hrest, List.head?_cons]
    have hnext : names.drop (j + 1) = rest := by rw [← List.tail_drop, hrest, List.tail_cons]
    rw [row, pair_inStore hnodup hsize ha hb]
    exact ih ((GraphScan.size_pair o i (store a) j (store b) s).trans hsize) hnext

lemma rows_inStore (hnodup : names.Nodup) (hsize : s.neighbors.size = names.length) {rest : List ι}
    (hrest : names.drop i = rest) :
    rows o i rest (s.inStore store names) = (s.rows o i (rest.map store)).inStore store names := by
  induction rest generalizing i s with
  | nil => rfl
  | cons a rest ih =>
    have ha : names[i]? = some a := by rw [← List.head?_drop, hrest, List.head?_cons]
    have hnext : names.drop (i + 1) = rest := by rw [← List.tail_drop, hrest, List.tail_cons]
    rw [rows, row_inStore hnodup hsize ha hnext]
    exact ih ((GraphScan.size_row o i (store a) (i + 1) _ s).trans hsize) hnext

end StoreScan

/-! ## The build -/

namespace BeatStore

/-- The scan of the beats under the names, once their lists are empty. -/
def scan (store : BeatStore ι R) (o : GraphOptions R) (names : List ι) : StoreScan ι R :=
  .rows o 0 names ⟨store.clear names, .empty⟩

/-- The store is scanned like the list of its beats. -/
lemma scan_eq (hnodup : names.Nodup) :
    store.scan o names = (GraphScan.all o (names.map store)).inStore store names := by
  have hstart : (⟨store.clear names, .empty⟩ : StoreScan ι R)
      = (GraphScan.start names.length).inStore store names := by
    rw [clear_eq]
    rfl
  rw [scan, hstart, GraphScan.all, List.length_map]
  exact StoreScan.rows_inStore hnodup Array.size_replicate List.drop_zero

omit [DecidableEq ι] in
/-- There is a list for each name. -/
lemma size_lists : (GraphScan.all o (names.map store)).neighbors.size = names.length := by
  rw [GraphScan.size_all, List.length_map]

/-- A build fails where the beats have no graph, and then it leaves the store alone. -/
lemma build_eq : store.build o names = match buildGraph o (names.map store) with
    | .ok _ => (.ok ((store.scan o names).summary o names), (store.scan o names).store)
    | .error fault => (.error fault, store) := by
  -- the beats are checked as they are in the store
  have hget : (get : ExceptT (GraphFault R) (StateM (BeatStore ι R)) _).run.run store
      = (pure (.ok store, store) : Id _) := rfl
  unfold build buildInStore buildGraph
  rw [List.isEmpty_map]
  by_cases hempty : names.isEmpty = true
  · rw [if_pos hempty, if_pos hempty]
    rfl
  rw [if_neg hempty, if_neg hempty]
  simp only [ExceptT.run_bind, StateT.run_bind, hget, pure_bind, List.length_map]
  cases checkBeats (names.map store) with
  | error rule => rfl
  | ok u =>
    by_cases hfew : names.length < 2
    · simp only [if_pos hfew]
      rfl
    · simp only [if_neg hfew]
      rfl

lemma build_of_error {fault : GraphFault R} (h : buildGraph o (names.map store) = .error fault) :
    store.build o names = (.error fault, store) := by
  rw [build_eq, h]

/-- Under different names a build leaves the beats of the graph, and it gives the summary of it. -/
theorem build_of_ok (hnodup : names.Nodup) {connected : List (Beat R)} {summary : GraphSummary R}
    (h : buildGraph o (names.map store) = .ok (connected, summary)) :
    ∃ after : BeatStore ι R, store.build o names = (.ok summary, after)
      ∧ after = store.withLists names (GraphScan.all o (names.map store)).neighbors
      ∧ names.map after = connected := by
  have hconnected : names.map (store.withLists names (GraphScan.all o (names.map store)).neighbors)
      = connected := by
    rw [map_withLists hnodup size_lists, (of_buildGraph h).2.2]
  have hsummary : ((GraphScan.all o (names.map store)).inStore store names).summary o names
      = summary := by
    rw [summary_of_buildGraph h, List.length_map, ← map_neighbors_of_buildGraph h, ← hconnected,
      List.countP_map, List.countP_map]
    rfl
  refine ⟨_, ?_, rfl, hconnected⟩
  rw [build_eq, h, ← hsummary, scan_eq hnodup]
  rfl

/-- A beat with new lists has the neighbors by definition, and all else as before. -/
theorem withLists_all [SymmetricDifference R] (hnodup : names.Nodup) {i : ℕ} {name : ι}
    (h : names[i]? = some name) :
    store.withLists names (GraphScan.all o (names.map store)).neighbors name
      = { store name with
          neighbors := (neighborsIn o (names.map store) i (store name)).toArray } := by
  have hbeat : (names.map store)[i]? = some (store name) := by
    rw [List.getElem?_map, h, Option.map_some]
  have hlist := getElem?_withNeighbors (o := o) hbeat
  rw [← map_withLists hnodup size_lists, List.getElem?_map, h, Option.map_some] at hlist
  exact Option.some.inj hlist

end BeatStore

/-! ## Names of good beats -/

open Double

/-- The first beat starts at a number, and the second one at a greater number. -/
def Beat.StartsBefore (a b : Beat Float) : Prop :=
  ∃ x y, value? a.start = some x ∧ value? b.start = some y ∧ x < y

instance : Trans Beat.StartsBefore Beat.StartsBefore Beat.StartsBefore where
  trans := by
    rintro a b c ⟨x, y, ha, hb, hxy⟩ ⟨y', z, hb', hc, hyz⟩
    obtain rfl : y = y' := Option.some.inj (hb.symm.trans hb')
    exact ⟨x, z, ha, hc, hxy.trans hyz⟩

lemma Beat.Precedes.startsBefore {a b : Beat Float} (h : a.Precedes b) (ha : a.Timely)
    (hb : b.Timely) : a.StartsBefore b := by
  obtain ⟨x, hx⟩ := (isFinite_iff a.start).mp ha.start_finite
  obtain ⟨y, hy⟩ := (isFinite_iff b.start).mp hb.start_finite
  exact ⟨x, y, hx, hy, not_le.mp (mt (le_iff_of_value hy hx).mpr h.start)⟩

omit [DecidableEq ι] in
/-- A store has no good beat under the names twice. -/
theorem nodup_of_checkBeats {names : List ι} {store : BeatStore ι Float}
    (h : checkBeats (names.map store) = .ok ()) : names.Nodup := by
  have htimely := timely_of_checkBeats h
  have hchain : (names.map store).IsChain Beat.StartsBefore :=
    (isChain_of_checkBeats h).imp_of_mem_imp fun a b ha hb hab =>
      hab.startsBefore (htimely a ha) (htimely b hb)
  refine (List.pairwise_map.mp hchain.pairwise).imp ?_
  rintro name _ ⟨x, y, hx, hy, hlt⟩ rfl
  obtain rfl : x = y := Option.some.inj (hx.symm.trans hy)
  exact lt_irrefl x hlt

end EndlessRemix
