import EndlessRemix.Proofs.Remix.Make

/-!
# The course of a remix

A remix takes one of six courses, and each leaves its own record of events: the extraction fails, it
finds no beats, the beats cannot be connected, the policy refuses them, the track fails, or the
remix is made.
-/

namespace EndlessRemix

variable {R : Type} [Scalar R]

/-! ## Events -/

/-- What happens up to the extraction. -/
def openingEvents (buffer : SampleBuffer R) : List (RemixEvent R) :=
  [.notice (.analyzing buffer.frameCount buffer.sampleRate), .extraction]

/-- What is said about extracted beats. -/
def beatEvents (o : RemixOptions R) (beats : List (Beat R)) : List (RemixEvent R) :=
  [.notice (.detected beats.length), .notice (.building o.threshold)]

/-- What is said about a connection that is accepted. -/
def connectionEvents (o : RemixOptions R) (c : Connection R) : List (RemixEvent R) :=
  (c.degenerate.toList.map fun cause => .notice (.degenerate cause))
    ++ [.notice (.connected c.summary.edgeCount c.summary.branchingBeats),
      .notice (.generating o.targetDurationSeconds o.seed)]

/-- What is said about a track. -/
def trackEvents (report : TrackReport R) : List (RemixEvent R) :=
  [.notice (.emitted report.path.size report.jumps report.wraparounds)]

/-! ## Courses -/

/-- The remix that is made of these parts. -/
def Remix.of (o : RemixOptions R) (c : Connection R) (track : Track R UInt32) : Remix R where
  output := track.output
  beats := c.beats
  graph := c.summary
  walk := track.report
  isDegenerate := c.degenerate.isSome
  options := o

/-- The events of a remix and its outcome, by how far it gets. -/
inductive Course [Memory] (extract : Extractor R) (buffer : SampleBuffer R) (o : RemixOptions R) :
    List (RemixEvent R) → Except (RemixError R) (Remix R) → Prop where
  | notExtracted {e : RemixError R} (h : extract o.analysis buffer = .error e) :
      Course extract buffer o (openingEvents buffer) (.error e)
  | noBeats (h : extract o.analysis buffer = .ok []) :
      Course extract buffer o (openingEvents buffer) (.error .noBeats)
  | notConnected {beats : List (Beat R)} {e : RemixError R}
      (hbeats : extract o.analysis buffer = .ok beats) (hne : beats ≠ [])
      (h : connect o.graph beats = .error e) :
      Course extract buffer o (openingEvents buffer ++ beatEvents o beats) (.error e)
  | rejected {beats : List (Beat R)} {c : Connection R} {cause : DegenerateCause R}
      (hbeats : extract o.analysis buffer = .ok beats) (hne : beats ≠ [])
      (hconnect : connect o.graph beats = .ok c) (hcause : c.degenerate = some cause)
      (hpolicy : o.degenerateGraph = .reject) :
      Course extract buffer o (openingEvents buffer ++ beatEvents o beats)
        (.error (.degenerate cause))
  | noTrack {beats : List (Beat R)} {c : Connection R} {e : RemixError R}
      (hbeats : extract o.analysis buffer = .ok beats) (hne : beats ≠ [])
      (hconnect : connect o.graph beats = .ok c)
      (haccept : c.degenerate = none ∨ o.degenerateGraph = .warn)
      (h : o.track buffer c.beats = .error e) :
      Course extract buffer o
        (openingEvents buffer ++ beatEvents o beats ++ connectionEvents o c) (.error e)
  | made {beats : List (Beat R)} {c : Connection R} {track : Track R UInt32}
      (hbeats : extract o.analysis buffer = .ok beats) (hne : beats ≠ [])
      (hconnect : connect o.graph beats = .ok c)
      (haccept : c.degenerate = none ∨ o.degenerateGraph = .warn)
      (htrack : o.track buffer c.beats = .ok track) :
      Course extract buffer o
        (openingEvents buffer ++ beatEvents o beats ++ connectionEvents o c
          ++ trackEvents track.report)
        (.ok (.of o c track))

omit [Scalar R] in
/-- Of an accepted connection only the warning is said. -/
lemma DegeneratePolicy.apply_of_accept {policy : DegeneratePolicy} {c : Connection R}
    (h : c.degenerate = none ∨ policy = .warn) :
    policy.apply c = ⟨c.degenerate.toList.map fun cause => .notice (.degenerate cause), .ok ()⟩ := by
  rcases h with h | rfl
  · rw [h]
    unfold DegeneratePolicy.apply
    rw [h]
    rfl
  · unfold DegeneratePolicy.apply
    cases c.degenerate <;> rfl

section

variable [Memory] {extract : Extractor R} {buffer : SampleBuffer R} {o : RemixOptions R}
  {beats : List (Beat R)} {c : Connection R}

/-- What follows once the beats are connected. -/
def walkOn (buffer : SampleBuffer R) (o : RemixOptions R) (c : Connection R) :
    Journaled (RemixEvent R) (RemixError R) (Remix R) := do
  o.degenerateGraph.apply c
  .record (.notice (.connected c.summary.edgeCount c.summary.branchingBeats))
  .record (.notice (.generating o.targetDurationSeconds o.seed))
  let track ← .ofExcept (o.track buffer c.beats)
  .record (.notice (.emitted track.report.path.size track.report.jumps track.report.wraparounds))
  return .of o c track

/-- Extracted beats are reported, connected, and walked. -/
lemma remixWith_of_extract (hbeats : extract o.analysis buffer = .ok beats) (hne : beats ≠ []) :
    remixWith extract buffer o
      = (⟨openingEvents buffer ++ beatEvents o beats, connect o.graph beats⟩ >>= walkOn buffer o) := by
  have hempty : ¬beats.isEmpty = true := by
    rwa [List.isEmpty_iff]
  cases hconnect : connect o.graph beats with
  | error e =>
    simp only [remixWith, hbeats, Journaled.ofExcept_ok_bind, if_neg hempty, hconnect]
    rfl
  | ok c =>
    simp only [remixWith, hbeats, Journaled.ofExcept_ok_bind, if_neg hempty, hconnect]
    rfl

/-- Beats that can be connected are walked on. -/
lemma outcome_of_connect (hbeats : extract o.analysis buffer = .ok beats) (hne : beats ≠ [])
    (hconnect : connect o.graph beats = .ok c) :
    (remixWith extract buffer o).outcome = (walkOn buffer o c).outcome := by
  rw [remixWith_of_extract hbeats hne, hconnect]
  rfl

/-- On an accepted connection the track decides. -/
lemma walkOn_of_accept (buffer : SampleBuffer R)
    (haccept : c.degenerate = none ∨ o.degenerateGraph = .warn) :
    walkOn buffer o c = match o.track buffer c.beats with
      | .error e => ⟨connectionEvents o c, .error e⟩
      | .ok track => ⟨connectionEvents o c ++ trackEvents track.report, .ok (.of o c track)⟩ := by
  rw [walkOn, DegeneratePolicy.apply_of_accept haccept, connectionEvents]
  cases o.track buffer c.beats with
  | error e => rfl
  | ok track =>
    dsimp only
    rw [List.append_assoc]
    rfl

/-- A connection that is not accepted ends the remix. -/
lemma walkOn_of_reject (buffer : SampleBuffer R) {cause : DegenerateCause R}
    (hcause : c.degenerate = some cause) (hpolicy : o.degenerateGraph = .reject) :
    walkOn buffer o c = ⟨[], .error (.degenerate cause)⟩ := by
  simp only [walkOn, DegeneratePolicy.apply, hcause, hpolicy]
  rfl

omit [Scalar R] [Memory] in
/-- A connection is accepted, or its cause and the policy are against it. -/
lemma accept_or_reject (c : Connection R) (policy : DegeneratePolicy) :
    (c.degenerate = none ∨ policy = .warn) ∨ ∃ cause, c.degenerate = some cause ∧ policy = .reject := by
  cases hcause : c.degenerate with
  | none => exact .inl (.inl rfl)
  | some cause =>
    cases policy with
    | warn => exact .inl (.inr rfl)
    | reject => exact .inr ⟨cause, rfl, rfl⟩

/-- A remix takes one of the courses. -/
theorem course_remixWith (extract : Extractor R) (buffer : SampleBuffer R) (o : RemixOptions R) :
    Course extract buffer o (remixWith extract buffer o).events
      (remixWith extract buffer o).outcome := by
  cases hbeats : extract o.analysis buffer with
  | error e =>
    rw [remixWith, hbeats]
    exact .notExtracted hbeats
  | ok beats =>
    by_cases hne : beats = []
    · subst hne
      rw [remixWith, hbeats]
      exact .noBeats hbeats
    · rw [remixWith_of_extract hbeats hne]
      cases hconnect : connect o.graph beats with
      | error e => exact .notConnected hbeats hne hconnect
      | ok c =>
        rcases accept_or_reject c o.degenerateGraph with haccept | ⟨cause, hcause, hpolicy⟩
        · have hrun := walkOn_of_accept buffer haccept
          cases htrack : o.track buffer c.beats with
          | error e =>
            rw [htrack] at hrun
            show Course extract buffer o (_ ++ (walkOn buffer o c).events) (walkOn buffer o c).outcome
            rw [hrun]
            exact .noTrack hbeats hne hconnect haccept htrack
          | ok track =>
            rw [htrack] at hrun
            show Course extract buffer o (_ ++ (walkOn buffer o c).events) (walkOn buffer o c).outcome
            rw [hrun, ← List.append_assoc]
            exact .made hbeats hne hconnect haccept htrack
        · show Course extract buffer o (_ ++ (walkOn buffer o c).events) (walkOn buffer o c).outcome
          rw [walkOn_of_reject buffer hcause hpolicy, List.append_nil]
          exact .rejected hbeats hne hconnect hcause hpolicy

/-- The outcome of a remix is that of its course. -/
lemma exists_course {x : Except (RemixError R) (Remix R)}
    (h : (remixWith extract buffer o).outcome = x) :
    ∃ events, (remixWith extract buffer o).events = events ∧ Course extract buffer o events x :=
  ⟨_, rfl, h ▸ course_remixWith extract buffer o⟩

end

/-! ## Connections -/

section

variable {o : GraphOptions R} {beats connected : List (Beat R)} {c : Connection R}
  {summary : GraphSummary R} {e : RemixError R}

/-- Connected beats obey the rules. They are a graph, degenerate if it has no edge, or a lone beat
without its old neighbors. -/
theorem of_connect (h : connect o beats = .ok c) :
    checkBeats beats = .ok ()
      ∧ ((buildGraph o beats = .ok (c.beats, c.summary)
            ∧ c.degenerate = if c.summary.edgeCount = 0 then some (.noEdges o.threshold) else none)
        ∨ (∃ beat, beats = [beat])
            ∧ c = ⟨withoutNeighbors beats, .edgeless beats o.threshold, some (.tooFewBeats 1)⟩) := by
  rw [connect] at h
  cases hbuild : buildGraph o beats with
  | ok graph =>
    rw [hbuild] at h
    obtain rfl := Except.ok.inj h
    exact ⟨(of_buildGraph hbuild).1, .inl ⟨rfl, rfl⟩⟩
  | error fault =>
    rw [hbuild] at h
    rcases of_buildGraph_eq_error hbuild with ⟨-, rfl⟩ | ⟨rule, -, rfl⟩ | ⟨hcheck, hone, rfl⟩
    · cases h
    · cases h
    · exact ⟨hcheck, .inr ⟨hone, (Except.ok.inj h).symm⟩⟩

/-- Beats cannot be connected if there are none or one of them breaks a rule. -/
theorem of_connect_eq_error (h : connect o beats = .error e) :
    (beats = [] ∧ e = .noBeats) ∨ ∃ rule, checkBeats beats = .error rule ∧ e = .beats rule := by
  rw [connect] at h
  cases hbuild : buildGraph o beats with
  | ok graph =>
    rw [hbuild] at h
    cases h
  | error fault =>
    rw [hbuild] at h
    rcases of_buildGraph_eq_error hbuild with ⟨hempty, rfl⟩ | ⟨rule, hrule, rfl⟩ | ⟨-, -, rfl⟩
    · exact .inl ⟨hempty, (Except.error.inj h).symm⟩
    · exact .inr ⟨rule, hrule, (Except.error.inj h).symm⟩
    · cases h

omit [Scalar R] in
/-- New neighbor lists do not make other beats. -/
lemma withoutNeighbors_withNeighbors {lists : Array (Array (Neighbor R))}
    (h : lists.size = beats.length) :
    withoutNeighbors (withNeighbors beats lists) = withoutNeighbors beats := by
  rw [withNeighbors, withoutNeighbors, withoutNeighbors, List.map_zipWith]
  apply List.ext_getElem
  · simp [h]
  · intro i h1 h2
    simp

/-- Connected beats are the beats that were extracted. -/
theorem sameBeats_of_connect (h : connect o beats = .ok c) : SameBeats c.beats beats := by
  obtain ⟨-, ⟨hbuild, -⟩ | ⟨-, rfl⟩⟩ := of_connect h
  · obtain ⟨-, -, hbeats⟩ := of_buildGraph hbuild
    rw [hbeats]
    exact withoutNeighbors_withNeighbors (GraphScan.size_all o beats)
  · show List.map _ (List.map _ beats) = List.map _ beats
    rw [List.map_map]
    rfl

end

/-! ## Before anything happens -/

/-- A source passes with a positive rate and good channels. -/
theorem checkSource_eq_ok {buffer : SampleBuffer R} : checkSource buffer = .ok ()
    ↔ Scalar.isFinite buffer.sampleRate = true ∧ ¬buffer.sampleRate ≤ 0
      ∧ buffer.check = .ok () := by
  unfold checkSource
  by_cases hrate : ¬Scalar.isFinite buffer.sampleRate = true ∨ buffer.sampleRate ≤ 0
  · rw [if_pos hrate]
    refine iff_of_false (fun h => nomatch h) ?_
    rintro ⟨hfinite, hpos, -⟩
    rcases hrate with h | h
    · exact h hfinite
    · exact hpos h
  · rw [if_neg hrate]
    rw [not_or, not_not] at hrate
    show buffer.check.mapError RemixError.buffer = .ok () ↔ _
    rw [mapError_eq_ok]
    exact ⟨fun h => ⟨hrate.1, hrate.2, h⟩, fun h => h.2.2⟩

/-- A remix fails without any event, or takes a course with options that were asked for. -/
theorem makeRemix_cases [Memory] (extract : Extractor R) (drawn : R) (buffer : SampleBuffer R)
    (settings : RemixSettings R) :
    (∃ fault, settings.resolve drawn = .error fault
        ∧ makeRemix extract drawn buffer settings = ⟨[], .error (.option fault)⟩)
      ∨ (∃ o e, settings.resolve drawn = .ok o ∧ checkSource buffer = .error e
        ∧ makeRemix extract drawn buffer settings = ⟨[], .error e⟩)
      ∨ ∃ o, settings.resolve drawn = .ok o ∧ checkSource buffer = .ok ()
        ∧ makeRemix extract drawn buffer settings = remixWith extract buffer o := by
  cases hresolve : settings.resolve drawn with
  | error fault =>
    left
    refine ⟨fault, rfl, ?_⟩
    rw [makeRemix, hresolve]
    rfl
  | ok o =>
    right
    rw [makeRemix_of_resolve hresolve]
    cases hsource : checkSource buffer with
    | error e => exact .inl ⟨o, e, rfl, rfl, rfl⟩
    | ok u => exact .inr ⟨o, rfl, rfl, rfl⟩

end EndlessRemix
