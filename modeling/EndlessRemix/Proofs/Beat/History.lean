import EndlessRemix.Proofs.Beat.Store

/-!
# Builds in a row

A build either fails and leaves the store as it is, or succeeds and changes nothing but the neighbor
lists of the beats that it was given. So after any history of builds and revisions, the list of a
beat is that of the last build that succeeded with it, whatever failed since.
-/

namespace EndlessRemix

variable {ι : Type} [DecidableEq ι]

/-! ## One build -/

namespace BeatStore

variable {store : BeatStore ι Float} {o : GraphOptions Float} {names : List ι}

/-- A build succeeds. -/
def Builds (store : BeatStore ι Float) (o : GraphOptions Float) (names : List ι) : Prop :=
  ∃ summary, (store.build o names).1 = .ok summary

/-- A build fails with an error of a kind. -/
def Refuses (store : BeatStore ι Float) (o : GraphOptions Float) (names : List ι)
    (kind : ErrorKind) : Prop :=
  ∃ fault, (store.build o names).1 = .error fault ∧ fault.kind = kind

/-- All beats under the names keep the rules at their positions. -/
def Good (store : BeatStore ι Float) (names : List ι) : Prop :=
  ∀ (i : ℕ) (beat : Beat Float), (names.map store)[i]? = some beat →
    beat.KeepsRules (names.map store) i

omit [DecidableEq ι] in
lemma good_nil : store.Good [] := nofun

omit [DecidableEq ι] in
lemma not_good_iff : ¬store.Good names ↔ ∃ (i : ℕ) (beat : Beat Float),
    (names.map store)[i]? = some beat ∧ ¬beat.KeepsRules (names.map store) i := by
  simp only [Good, not_forall, exists_prop]

/-- The build where the beats are is the one that the list of them has. -/
lemma build_eq_buildGraph :
    (store.build o names).1 = (buildGraph o (names.map store)).map (·.2)
      ∧ names.map (store.build o names).2 = rebuild o (names.map store) := by
  unfold rebuild
  cases hgraph : buildGraph o (names.map store) with
  | error fault =>
    rw [build_of_error hgraph]
    exact ⟨rfl, rfl⟩
  | ok graph =>
    obtain ⟨after, hbuild, -, hafter⟩ := build_of_ok (nodup_of_checkBeats (of_buildGraph hgraph).1)
      hgraph
    rw [hbuild]
    exact ⟨rfl, hafter⟩

/-- What a build reports and what it leaves. It is refused for want of beats, for a beat that breaks
a rule, or for a lone good beat, and then it leaves the store alone. Else it gives the beats under
the names their neighbors by definition, and changes nothing else. -/
structure BuildOutcome (store : BeatStore ι Float) (o : GraphOptions Float) (names : List ι) :
    Prop where
  emptyInput : store.Refuses o names .emptyInput ↔ names = []
  input : store.Refuses o names .input ↔ ∃ (i : ℕ) (beat : Beat Float),
    (names.map store)[i]? = some beat ∧ ¬beat.KeepsRules (names.map store) i
  degenerateGraph : store.Refuses o names .degenerateGraph ↔ store.Good names ∧ names.length = 1
  builds : store.Builds o names ↔ store.Good names ∧ 2 ≤ names.length
  unchanged : ¬store.Builds o names → (store.build o names).2 = store
  changed : store.Builds o names → ∀ name, ∃ neighbors,
    (store.build o names).2 name = { store name with neighbors }
      ∧ (name ∉ names → neighbors = (store name).neighbors)
      ∧ ∀ i, names[i]? = some name →
          neighbors = (neighborsIn o (names.map store) i (store name)).toArray

/-- A build that fails leaves the store alone. -/
lemma buildOutcome_of_error {fault : GraphFault Float}
    (hbuild : store.build o names = (.error fault, store))
    (hempty : fault.kind = .emptyInput ↔ names = [])
    (hinput : fault.kind = .input ↔ ¬store.Good names)
    (hdegenerate : fault.kind = .degenerateGraph ↔ store.Good names ∧ names.length = 1)
    (hfew : ¬(store.Good names ∧ 2 ≤ names.length)) : store.BuildOutcome o names := by
  have hrefuses (kind : ErrorKind) : store.Refuses o names kind ↔ fault.kind = kind := by
    rw [Refuses, hbuild]
    constructor
    · rintro ⟨fault', hfault, rfl⟩
      rw [Except.error.inj hfault]
    · intro hkind
      exact ⟨fault, rfl, hkind⟩
  have hnot : ¬store.Builds o names := by
    rw [Builds, hbuild]
    exact nofun
  exact {
    emptyInput := (hrefuses _).trans hempty
    input := (hrefuses _).trans (hinput.trans not_good_iff)
    degenerateGraph := (hrefuses _).trans hdegenerate
    builds := iff_of_false hnot hfew
    unchanged := fun _ => by rw [hbuild]
    changed := fun h => absurd h hnot }

/-- A build that succeeds gives the beats under the names their neighbors. -/
lemma buildOutcome_of_ok {summary : GraphSummary Float} (hnodup : names.Nodup)
    (hgood : store.Good names) (hmany : 2 ≤ names.length)
    (hbuild : store.build o names = (.ok summary,
      store.withLists names (GraphScan.all o (names.map store)).neighbors)) :
    store.BuildOutcome o names := by
  have hrefuses (kind : ErrorKind) : ¬store.Refuses o names kind := by
    rw [Refuses, hbuild]
    exact nofun
  have hbuilds : store.Builds o names := by
    rw [Builds, hbuild]
    exact ⟨summary, rfl⟩
  refine ⟨iff_of_false (hrefuses _) ?_, iff_of_false (hrefuses _) ?_, iff_of_false (hrefuses _) ?_,
    iff_of_true hbuilds ⟨hgood, hmany⟩, fun h => absurd hbuilds h, fun _ name => ?_⟩
  · rintro rfl
    simp at hmany
  · exact fun h => not_good_iff.mpr h hgood
  · rintro ⟨-, hone⟩
    omega
  · rw [hbuild]
    by_cases hmem : name ∈ names
    · have hname : names[names.idxOf name]? = some name := List.getElem?_idxOf hmem
      refine ⟨_, withLists_all hnodup hname, fun h => absurd hmem h, ?_⟩
      intro i hi
      rw [idxOf_eq hnodup hi]
    · refine ⟨_, withLists_of_notMem size_lists hmem, fun _ => rfl, ?_⟩
      intro i hi
      exact absurd (List.mem_of_getElem? hi) hmem

theorem buildOutcome (store : BeatStore ι Float) (o : GraphOptions Float) (names : List ι) :
    store.BuildOutcome o names := by
  cases hgraph : buildGraph o (names.map store) with
  | error fault =>
    have hbuild := build_of_error hgraph
    rcases of_buildGraph_eq_error hgraph with ⟨hempty, rfl⟩ | ⟨rule, hrule, rfl⟩
      | ⟨hcheck, ⟨beat, hone⟩, rfl⟩
    · obtain rfl := List.map_eq_nil_iff.mp hempty
      exact buildOutcome_of_error hbuild (iff_of_true rfl rfl)
        (iff_of_false nofun (not_not.mpr good_nil)) (iff_of_false nofun (by simp)) (by simp)
    · have hbad : ¬store.Good names := by
        rw [Good, ← checkBeats_eq_ok_iff, hrule]
        exact nofun
      refine buildOutcome_of_error hbuild (iff_of_false nofun ?_) (iff_of_true rfl hbad)
        (iff_of_false nofun fun h => hbad h.1) fun h => hbad h.1
      rintro rfl
      exact hbad good_nil
    · have hgood : store.Good names := checkBeats_eq_ok_iff.mp hcheck
      have hlength : names.length = 1 := by
        rw [← List.length_map (f := store), hone, List.length_singleton]
      refine buildOutcome_of_error hbuild (iff_of_false nofun ?_)
        (iff_of_false nofun (not_not.mpr hgood)) (iff_of_true rfl ⟨hgood, hlength⟩) ?_
      · rintro rfl
        cases hlength
      · rintro ⟨-, hmany⟩
        omega
  | ok graph =>
    obtain ⟨hcheck, hlength, -⟩ := of_buildGraph hgraph
    rw [List.length_map] at hlength
    have hnodup := nodup_of_checkBeats hcheck
    obtain ⟨_, hbuild, rfl, -⟩ := build_of_ok hnodup hgraph
    exact buildOutcome_of_ok hnodup (checkBeats_eq_ok_iff.mp hcheck) hlength hbuild

end BeatStore

/-! ## Many builds -/

/-- The event is a build that succeeds with the beat under the name among its beats. -/
def StoreEvent.Connects (store : BeatStore ι Float) (name : ι) : StoreEvent ι Float → Prop
  | .build o names => name ∈ names ∧ store.Builds o names
  | .revise _ _ => False

namespace BeatStore

/-- None of the events, one after the other, connects the beat under the name. -/
def Unconnected (store : BeatStore ι Float) (name : ι) : List (StoreEvent ι Float) → Prop
  | [] => True
  | event :: rest => ¬event.Connects store name ∧ Unconnected (event.apply store) name rest

/-- The beat under the name has its list from the last build that succeeded with it: from the
options of that build and the beats as they were then. -/
def FromLastBuild (store : BeatStore ι Float) (events : List (StoreEvent ι Float)) (name : ι) :
    Prop :=
  ∃ before o names later, events = before ++ .build o names :: later
    ∧ (store.after before).Builds o names
    ∧ (store.after (before ++ [.build o names])).Unconnected name later
    ∧ ∃ i, names[i]? = some name ∧ (store.after events name).neighbors
        = (neighborsIn o (names.map (store.after before)) i (store.after before name)).toArray

variable {store : BeatStore ι Float} {name : ι}

/-- An event that does not connect a beat leaves it the list. -/
lemma neighbors_apply {event : StoreEvent ι Float} (h : ¬event.Connects store name) :
    (event.apply store name).neighbors = (store name).neighbors := by
  cases event with
  | build o names =>
    have houtcome := store.buildOutcome o names
    rw [StoreEvent.apply]
    by_cases hbuilds : store.Builds o names
    · obtain ⟨neighbors, hafter, hother, -⟩ := houtcome.changed hbuilds name
      rw [hafter]
      exact hother fun hmem => h ⟨hmem, hbuilds⟩
    · rw [houtcome.unchanged hbuilds]
  | revise other beat =>
    rw [StoreEvent.apply, put]
    split_ifs with hname
    · rw [hname]
    · rfl

/-- So do many of them. -/
lemma neighbors_after {events : List (StoreEvent ι Float)} (h : store.Unconnected name events) :
    (store.after events name).neighbors = (store name).neighbors := by
  induction events generalizing store with
  | nil => rfl
  | cons event rest ih => exact (ih h.2).trans (neighbors_apply h.1)

/-- A build that succeeds gives a beat its list, which stays until the next one does. -/
lemma neighbors_after_build {o : GraphOptions Float} {names : List ι} (hmem : name ∈ names)
    (hbuilds : store.Builds o names) {later : List (StoreEvent ι Float)}
    (h : (store.after [.build o names]).Unconnected name later) :
    ∃ i, names[i]? = some name ∧ (store.after (.build o names :: later) name).neighbors
      = (neighborsIn o (names.map store) i (store name)).toArray := by
  obtain ⟨neighbors, hafter, -, hlist⟩ := (store.buildOutcome o names).changed hbuilds name
  have hname : names[names.idxOf name]? = some name := List.getElem?_idxOf hmem
  refine ⟨_, hname, ?_⟩
  calc (store.after (.build o names :: later) name).neighbors
      = ((store.build o names).2 name).neighbors := neighbors_after h
    _ = neighbors := by rw [hafter]
    _ = _ := hlist _ hname

/-- After any history, a beat has the list from before it, or the one from the last build. -/
theorem unconnected_or_fromLastBuild (events : List (StoreEvent ι Float)) :
    store.Unconnected name events ∨ store.FromLastBuild events name := by
  induction events generalizing store with
  | nil => exact .inl trivial
  | cons event rest ih =>
    rcases @ih (event.apply store) with hrest | ⟨before, o, names, later, rfl, hlast⟩
    · -- no later build connects the beat, so this event is the last one or none is
      by_cases hconnects : event.Connects store name
      · cases event with
        | build o names =>
          exact .inr ⟨[], o, names, rest, rfl, hconnects.2, hrest,
            neighbors_after_build hconnects.1 hconnects.2 hrest⟩
        | revise other beat => exact hconnects.elim
      · exact .inl ⟨hconnects, hrest⟩
    · exact .inr ⟨event :: before, o, names, later, rfl, hlast⟩

end BeatStore

/-- A build of beats in a store reports and leaves what its outcome says, and it is the build of the
list of these beats. After any history of builds, failed ones among them, and of revisions in
between, a beat has the neighbor list from the last build that succeeded with it, or else the list
from the start. -/
theorem build_all_or_nothing (store : BeatStore ι Float) :
    (∀ (o : GraphOptions Float) (names : List ι), store.BuildOutcome o names
      ∧ (store.build o names).1 = (buildGraph o (names.map store)).map (·.2)
      ∧ names.map (store.build o names).2 = rebuild o (names.map store))
    ∧ ∀ (events : List (StoreEvent ι Float)) (name : ι),
        (store.Unconnected name events
          ∧ (store.after events name).neighbors = (store name).neighbors)
        ∨ store.FromLastBuild events name := by
  constructor
  · intro o names
    exact ⟨store.buildOutcome o names, BeatStore.build_eq_buildGraph⟩
  · intro events name
    rcases store.unconnected_or_fromLastBuild events with h | h
    · exact .inl ⟨h, BeatStore.neighbors_after h⟩
    · exact .inr h

/-- The twins, the later one under `true`. -/
def twinStore : BeatStore Bool Float
  | false => ⟨0, 0, 1, [1], [1], 0, 0, 1, #[⟨.beat 0, 7⟩]⟩
  | true => ⟨1, 1, 1, [1, 0], [1], 0, 0, 1, #[]⟩

/-- In bars of one beat. -/
def twinOptions : GraphOptions Float := ⟨60, .standard, 100, 1⟩

/-- The twins are connected, the later one loses its duration, and another build is refused. -/
def twinEvents : List (StoreEvent Bool Float) :=
  [.build twinOptions [false, true], .revise true ⟨1, 1, 0, [1, 0], [1], 0, 0, 1, #[]⟩,
    .build twinOptions [false, true]]

/-- The earlier twin keeps the list of the first build. -/
theorem build_all_or_nothing_twins : twinStore.Builds twinOptions [false, true]
    ∧ (twinStore.after (twinEvents.take 2)).Refuses twinOptions [false, true] .input
    ∧ twinStore.FromLastBuild twinEvents false := by
  obtain ⟨hbuild, hhistory⟩ := build_all_or_nothing twinStore
  have hcheck : checkBeats ([false, true].map twinStore) = .ok () := by rfl
  have hbuilds : twinStore.Builds twinOptions [false, true] :=
    (hbuild _ _).1.builds.mpr ⟨checkBeats_eq_ok_iff.mp hcheck, le_rfl⟩
  refine ⟨hbuilds, ?_, ?_⟩
  · refine ((build_all_or_nothing _).1 _ _).1.input.mpr ⟨1, _, rfl, ?_⟩
    intro h
    exact absurd h.timely.duration_pos (by decide +kernel)
  · refine (hhistory twinEvents false).resolve_left ?_
    rintro ⟨hunconnected, -⟩
    exact hunconnected.1 ⟨by decide, hbuilds⟩

end EndlessRemix
