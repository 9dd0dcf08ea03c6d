import EndlessRemix.Proofs.Beat.Neighbors
import EndlessRemix.Proofs.Options.Resolve
import EndlessRemix.Remix.Make

/-!
# How a remix is made

A remix that succeeds has passed every step, so each of its parts can be traced back to the step
that made it. The neighbors that extracted beats bring along play no part.
-/

namespace EndlessRemix

/-! ## Journaled processes -/

namespace Journaled

variable {ω ε α β : Type}

lemma ofExcept_ok_bind (a : α) (next : α → Journaled ω ε β) :
    (ofExcept (.ok a) >>= next) = next a := rfl

lemma outcome_bind_eq_ok {p : Journaled ω ε α} {next : α → Journaled ω ε β} {b : β} :
    (p >>= next).outcome = .ok b ↔ ∃ a, p.outcome = .ok a ∧ (next a).outcome = .ok b := by
  obtain ⟨events, outcome⟩ := p
  cases outcome with
  | ok a =>
    show (next a).outcome = .ok b ↔ _
    simp
  | error e =>
    show (.error e : Except ε β) = .ok b ↔ _
    simp

lemma outcome_ofExcept (outcome : Except ε α) :
    (ofExcept outcome : Journaled ω ε α).outcome = outcome := rfl

end Journaled

section

variable {R : Type} [Scalar R]

/-- What the parts of a remix are: the beats that were extracted, their connection, and the track on
the connected beats. -/
structure Remix.MadeFrom [Memory] (extract : Extractor R) (buffer : SampleBuffer R)
    (o : RemixOptions R) (beats : List (Beat R)) (c : Connection R) (track : Track R UInt32)
    (r : Remix R) : Prop where
  extracted : extract o.analysis buffer = .ok beats
  nonempty : beats.isEmpty = false
  connected : connect o.graph beats = .ok c
  accepted : (o.degenerateGraph.apply c).outcome = .ok ()
  walked : o.track buffer c.beats = .ok track
  parts : r = {
    output := track.output
    beats := c.beats
    graph := c.summary
    walk := track.report
    isDegenerate := c.degenerate.isSome
    options := o }

theorem exists_madeFrom [Memory] {extract : Extractor R} {buffer : SampleBuffer R}
    {o : RemixOptions R} {r : Remix R} (h : (remixWith extract buffer o).outcome = .ok r) :
    ∃ beats c track, r.MadeFrom extract buffer o beats c track := by
  rw [remixWith] at h
  simp only [Journaled.outcome_bind_eq_ok, Journaled.outcome_ofExcept] at h
  obtain ⟨_, -, _, -, beats, hbeats, h⟩ := h
  split_ifs at h with hempty
  · obtain ⟨_, hfault, -⟩ := Journaled.outcome_bind_eq_ok.mp h
    cases hfault
  · simp only [Journaled.outcome_bind_eq_ok, Journaled.outcome_ofExcept] at h
    obtain ⟨_, -, _, -, c, hc, _, hpolicy, _, -, _, -, track, htrack, _, -, hr⟩ := h
    exact ⟨beats, c, track, hbeats, by simpa using hempty, hc, hpolicy, htrack,
      (Except.ok.inj hr).symm⟩

/-- A remix succeeds with checked settings and a checked buffer only. -/
theorem of_makeRemix [Memory] {extract : Extractor R} {drawn : R} {buffer : SampleBuffer R}
    {settings : RemixSettings R} {r : Remix R}
    (h : (makeRemix extract drawn buffer settings).outcome = .ok r) :
    ∃ o, settings.resolve drawn = .ok o ∧ checkSource buffer = .ok ()
      ∧ (remixWith extract buffer o).outcome = .ok r := by
  rw [makeRemix] at h
  simp only [Journaled.outcome_bind_eq_ok, Journaled.outcome_ofExcept] at h
  obtain ⟨o, ho, _, hsource, hr⟩ := h
  exact ⟨o, mapError_eq_ok.mp ho, hsource, hr⟩

/-- With checked settings, a remix is made if the buffer is checked. -/
lemma makeRemix_of_resolve [Memory] {drawn : R} {settings : RemixSettings R} {o : RemixOptions R}
    (h : settings.resolve drawn = .ok o) (extract : Extractor R) (buffer : SampleBuffer R) :
    makeRemix extract drawn buffer settings
      = (.ofExcept (checkSource buffer) >>= fun _ => remixWith extract buffer o) := by
  rw [makeRemix, h]
  rfl

/-- A remix has the options that the settings give. -/
lemma resolve_of_makeRemix [Memory] {extract : Extractor R} {drawn : R} {buffer : SampleBuffer R}
    {settings : RemixSettings R} {r : Remix R}
    (h : (makeRemix extract drawn buffer settings).outcome = .ok r) :
    settings.resolve drawn = .ok r.options := by
  obtain ⟨o, hresolve, -, hmade⟩ := of_makeRemix h
  obtain ⟨beats, c, track, hparts⟩ := exists_madeFrom hmade
  rw [hresolve, hparts.parts]

/-! ## Beats with other neighbors -/

section

variable {beats beats' : List (Beat R)}

omit [Scalar R] in
lemma SameBeats.length_eq (h : SameBeats beats' beats) : beats'.length = beats.length := by
  have hlength := congrArg List.length h
  rwa [withoutNeighbors, withoutNeighbors, List.length_map, List.length_map] at hlength

/-- Neighbors that the beats had before play no part when they are connected. -/
lemma connect_congr (o : GraphOptions R) (h : SameBeats beats' beats) :
    connect o beats' = connect o beats := by
  have hgraph : buildGraph o beats' = buildGraph o beats := by
    rw [← buildGraph_withoutNeighbors, h, buildGraph_withoutNeighbors]
  have hedgeless : GraphSummary.edgeless beats' o.threshold = .edgeless beats o.threshold := by
    rw [GraphSummary.edgeless, h.length_eq, GraphSummary.edgeless]
  rw [connect, hgraph, h, hedgeless, connect]

/-- Nor do they when a remix is made of the beats. -/
lemma remixWith_congr [Memory] {extract extract' : Extractor R} {buffer : SampleBuffer R}
    {o : RemixOptions R} (hbeats : extract o.analysis buffer = .ok beats)
    (hbeats' : extract' o.analysis buffer = .ok beats') (h : SameBeats beats' beats) :
    remixWith extract' buffer o = remixWith extract buffer o := by
  have hempty : beats'.isEmpty = beats.isEmpty := by
    rw [Bool.eq_iff_iff, List.isEmpty_iff_length_eq_zero, List.isEmpty_iff_length_eq_zero,
      h.length_eq]
  rw [remixWith, remixWith, hbeats, hbeats']
  simp only [Journaled.ofExcept_ok_bind, h.length_eq, hempty, connect_congr o.graph h]

end

end

end EndlessRemix
