import EndlessRemix.Proofs.Beat.Edges
import EndlessRemix.Proofs.Remix.Course
import EndlessRemix.Proofs.Walk.Track

/-!
# Remixes without a jump

A graph without edges is reported once and played in order, or refused. The policy decides nothing
else: where it is not needed, both policies make the same remix.
-/

namespace EndlessRemix

variable {R : Type} [Scalar R]

/-! ## Connections without edges -/

section

variable {o : GraphOptions R} {beats : List (Beat R)} {c : Connection R}

/-- A connection has as many edges as its beats have neighbors. -/
theorem edgeCount_of_connect (h : connect o beats = .ok c) :
    c.summary.edgeCount = (c.beats.map fun beat => beat.neighbors.size).sum := by
  obtain ⟨-, ⟨hbuild, -⟩ | ⟨⟨beat, rfl⟩, rfl⟩⟩ := of_connect h
  · exact edgeCount_of_buildGraph hbuild
  · rfl

/-- A connection is degenerate if it has no edge. -/
lemma isSome_degenerate_iff (h : connect o beats = .ok c) :
    c.degenerate.isSome = true ↔ c.summary.edgeCount = 0 := by
  obtain ⟨-, ⟨-, hdegenerate⟩ | ⟨-, rfl⟩⟩ := of_connect h
  · rw [hdegenerate]
    split_ifs with hedges
    · exact iff_of_true rfl hedges
    · exact iff_of_false nofun hedges
  · exact iff_of_true rfl rfl

end

/-- A track on beats without neighbors plays them in order. -/
theorem track_of_edgeless [Memory] {o : RemixOptions R} {buffer : SampleBuffer R}
    {beats : List (Beat R)} {track : Track R UInt32}
    (hedgeless : ∀ beat ∈ beats, beat.neighbors = #[])
    (h : o.track buffer beats = .ok track) :
    track.report.jumps = 0
      ∧ ∀ k < track.report.path.size, track.report.path[k]? = some (k % beats.length) := by
  obtain ⟨spans, frames, journey, hbeats, -, hspans, -, hwalk, rfl⟩ :=
    of_generateTrack (mapError_eq_ok.mp h)
  have hplan : ∀ here, (planOf beats spans o.branchProbability .seeded).neighborsAt here = #[] := by
    intro here
    rw [neighborsAt_planOf]
    cases hbeat : beats[here]? with
    | none => rfl
    | some beat => exact hedgeless beat (List.mem_of_getElem? hbeat)
  have hsize := size_planOf o.branchProbability .seeded hspans
  obtain ⟨decisions, htrail⟩ := exists_trail (closed_of_edgeless hplan)
    (by rw [hsize]; exact List.length_pos_iff.mpr hbeats) hwalk
  rw [← hsize]
  exact htrail.of_edgeless hplan

/-! ## Warnings -/

/-- How often a warning is given. -/
def warnings (events : List (RemixEvent R)) : ℕ :=
  (notices events).countP fun notice => notice.level = .warn

omit [Scalar R] in
lemma warnings_append (events events' : List (RemixEvent R)) :
    warnings (events ++ events') = warnings events + warnings events' := by
  rw [warnings, notices, List.filterMap_append, List.countP_append]
  rfl

omit [Scalar R] in
/-- A remix that is made warns of a degenerate connection, once, and of nothing else. -/
lemma warnings_of_made (buffer : SampleBuffer R) (o : RemixOptions R) (beats : List (Beat R))
    (c : Connection R) (report : TrackReport R) :
    warnings (openingEvents buffer ++ beatEvents o beats ++ connectionEvents o c
        ++ trackEvents report)
      = if c.degenerate.isSome then 1 else 0 := by
  have hopening : warnings (openingEvents buffer) = 0 := rfl
  have hbeats : warnings (beatEvents o beats) = 0 := rfl
  have htrack : warnings (trackEvents report) = 0 := rfl
  have hconnection : warnings (connectionEvents o c) = if c.degenerate.isSome then 1 else 0 := by
    rw [connectionEvents, warnings_append]
    cases c.degenerate <;> rfl
  rw [warnings_append, warnings_append, warnings_append, hopening, hbeats, htrack, hconnection,
    Nat.zero_add, Nat.add_zero]

/-! ## Two policies -/

/-- The same options under another policy. -/
def RemixOptions.under (o : RemixOptions R) (policy : DegeneratePolicy) : RemixOptions R :=
  { o with degenerateGraph := policy }

/-- The same settings under another policy. -/
def RemixSettings.under (s : RemixSettings R) (policy : DegeneratePolicy) : RemixSettings R :=
  { s with degenerateGraph := some (.text policy.text) }

/-- The same remix under another policy. -/
def Remix.under (r : Remix R) (policy : DegeneratePolicy) : Remix R :=
  { r with options := r.options.under policy }

/-- The policy is all that another policy changes in the options. -/
lemma resolve_under {s : RemixSettings R} {drawn drawn' : R} (hseed : s.seed = none → drawn' = drawn)
    (p q : DegeneratePolicy) :
    (s.under q).resolve drawn' = ((s.under p).resolve drawn).map (·.under q) := by
  -- the word of the policy always passes, so both fail at the same setting or at none
  have hpolicy : ∀ policy : DegeneratePolicy,
      (settingOr (.text DegeneratePolicy.warn.text) (s.under policy).degenerateGraph).policy
        = .ok policy := Setting.policy_text
  have hsettings : ∀ policy, (s.under policy).seed = s.seed := fun policy => rfl
  show _ = (·.under q) <$> (s.under p).resolve drawn
  rw [RemixSettings.resolve, RemixSettings.resolve, hpolicy, hpolicy, hsettings, hsettings]
  cases hs : s.seed with
  | none =>
    rw [hseed hs]
    simp only [map_bind, map_pure]
    rfl
  | some setting =>
    simp only [map_bind, map_pure]
    rfl

/-- What an outcome becomes under a policy that rejects: what is degenerate is refused, what fails
may be refused before it fails, and all else is the same. -/
inductive Rejects : Except (RemixError R) (Remix R) → Except (RemixError R) (Remix R) → Prop where
  | refused {r : Remix R} {cause : DegenerateCause R} (h : r.isDegenerate = true) :
      Rejects (.ok r) (.error (.degenerate cause))
  | made {r : Remix R} (h : r.isDegenerate = false) : Rejects (.ok r) (.ok (r.under .reject))
  | refusedFirst {e : RemixError R} {cause : DegenerateCause R} :
      Rejects (.error e) (.error (.degenerate cause))
  | failed {e : RemixError R} : Rejects (.error e) (.error e)

/-- Every course leads to what it becomes, if the policy rejects. -/
theorem rejects_of_course [Memory] {extract : Extractor R} {buffer : SampleBuffer R}
    {o : RemixOptions R} {events : List (RemixEvent R)} {outcome : Except (RemixError R) (Remix R)}
    (h : Course extract buffer o events outcome) :
    Rejects outcome (remixWith extract buffer (o.under .reject)).outcome := by
  have hextract : ∀ beats, extract o.analysis buffer = .ok beats →
      extract (o.under .reject).analysis buffer = .ok beats := fun beats h => h
  cases h with
  | notExtracted h =>
    have h' : extract (o.under .reject).analysis buffer = .error _ := h
    rw [remixWith, h']
    exact .failed
  | noBeats h =>
    rw [remixWith, hextract _ h]
    exact .failed
  | notConnected hbeats hne h =>
    have h' : connect (o.under .reject).graph _ = .error _ := h
    rw [remixWith_of_extract (hextract _ hbeats) hne, h']
    exact .failed
  | rejected hbeats hne hconnect hcause hpolicy =>
    rw [outcome_of_connect (hextract _ hbeats) hne hconnect, walkOn_of_reject buffer hcause rfl]
    exact .failed
  -- the policy comes before the track, so a track that fails may be refused first
  | @noTrack beats c e hbeats hne hconnect haccept h =>
    rw [outcome_of_connect (hextract _ hbeats) hne hconnect]
    cases hcause : c.degenerate with
    | none =>
      have htrack : (o.under .reject).track buffer c.beats = .error e := h
      rw [walkOn_of_accept buffer (.inl hcause), htrack]
      exact .failed
    | some cause =>
      rw [walkOn_of_reject buffer hcause rfl]
      exact .refusedFirst
  | @made beats c track hbeats hne hconnect haccept h =>
    rw [outcome_of_connect (hextract _ hbeats) hne hconnect]
    cases hcause : c.degenerate with
    | none =>
      have htrack : (o.under .reject).track buffer c.beats = .ok track := h
      rw [walkOn_of_accept buffer (.inl hcause), htrack]
      exact .made (congrArg Option.isSome hcause)
    | some cause =>
      rw [walkOn_of_reject buffer hcause rfl]
      exact .refused (congrArg Option.isSome hcause)

/-- So does every remix, also with settings that do not pass. -/
theorem rejects_makeRemix [Memory] (extract : Extractor R) (buffer : SampleBuffer R)
    {settings : RemixSettings R} {drawn drawn' : R} (hseed : settings.seed = none → drawn' = drawn) :
    Rejects (makeRemix extract drawn buffer (settings.under .warn)).outcome
      (makeRemix extract drawn' buffer (settings.under .reject)).outcome := by
  have hresolve := resolve_under hseed .warn .reject
  rcases makeRemix_cases extract drawn buffer (settings.under .warn) with
    ⟨fault, hfault, hmake⟩ | ⟨o, e, ho, hsource, hmake⟩ | ⟨o, ho, hsource, hmake⟩ <;> rw [hmake]
  · rw [hfault] at hresolve
    rw [makeRemix, hresolve]
    exact .failed
  · rw [ho] at hresolve
    rw [makeRemix_of_resolve hresolve, hsource]
    exact .failed
  · rw [ho] at hresolve
    rw [makeRemix_of_resolve hresolve, hsource]
    exact rejects_of_course (course_remixWith extract buffer o)

/-! ## The policy -/

/-- A remix that is made has taken the course that makes it. -/
lemma exists_made [Memory] {extract : Extractor R} {buffer : SampleBuffer R}
    {settings : RemixSettings R} {drawn : R} {r : Remix R}
    (h : (makeRemix extract drawn buffer settings).outcome = .ok r) :
    ∃ o events, (makeRemix extract drawn buffer settings).events = events
      ∧ Course extract buffer o events (.ok r) := by
  rcases makeRemix_cases extract drawn buffer settings with
    ⟨fault, -, hmake⟩ | ⟨o, e, -, -, hmake⟩ | ⟨o, -, -, hmake⟩ <;> rw [hmake] at h ⊢
  · cases h
  · cases h
  · exact ⟨o, exists_course h⟩

/-- The policy for graphs without edges. A remix is degenerate if its graph has no edge, that is, if
no beat has a neighbor; exactly then a warning is given, once, and the beats are played in order
without a jump. Of the same input, under the policy that warns and under the one that rejects: what
is degenerate with a warning is refused, what is made without a warning is made the same, and what
fails either way fails with the same error or is refused before. -/
theorem makeRemix_degenerate [Memory] (extract : Extractor R) (buffer : SampleBuffer R)
    (settings : RemixSettings R) {drawn drawn' : R} (hseed : settings.seed = none → drawn' = drawn) :
    (∀ r, (makeRemix extract drawn buffer settings).outcome = .ok r →
        (r.isDegenerate = true ↔ r.graph.edgeCount = 0)
          ∧ (r.graph.edgeCount = 0 ↔ ∀ beat ∈ r.beats, beat.neighbors = #[])
          ∧ warnings (makeRemix extract drawn buffer settings).events
              = (if r.isDegenerate then 1 else 0)
          ∧ (r.isDegenerate = true → r.walk.jumps = 0
              ∧ ∀ k < r.walk.path.size, r.walk.path[k]? = some (k % r.beats.length)))
      ∧ (∀ r, (makeRemix extract drawn buffer (settings.under .warn)).outcome = .ok r →
          (r.isDegenerate = true → ∃ cause,
            (makeRemix extract drawn' buffer (settings.under .reject)).outcome
              = .error (.degenerate cause))
          ∧ (r.isDegenerate = false →
            (makeRemix extract drawn' buffer (settings.under .reject)).outcome
              = .ok (r.under .reject)))
      ∧ ∀ e, (makeRemix extract drawn buffer (settings.under .warn)).outcome = .error e →
          (makeRemix extract drawn' buffer (settings.under .reject)).outcome = .error e
            ∨ ∃ cause, (makeRemix extract drawn' buffer (settings.under .reject)).outcome
                = .error (.degenerate cause) := by
  refine ⟨fun r hrun => ?_, fun r hrun => ?_, fun e hrun => ?_⟩
  · obtain ⟨o, events, hevents, hcourse⟩ := exists_made hrun
    rw [hevents]
    cases hcourse with
    | @made beats c track _ _ hconnect _ htrack =>
      have hedges : c.summary.edgeCount = 0 ↔ ∀ beat ∈ c.beats, beat.neighbors = #[] := by
        rw [edgeCount_of_connect hconnect, sum_size_neighbors_eq_zero]
      have hdegenerate := isSome_degenerate_iff hconnect
      refine ⟨hdegenerate, hedges, warnings_of_made .., fun h => ?_⟩
      exact track_of_edgeless (hedges.mp (hdegenerate.mp h)) htrack
  · have hreject := rejects_makeRemix extract buffer hseed
    rw [hrun] at hreject
    generalize (makeRemix extract drawn' buffer (settings.under .reject)).outcome = rejected at *
    cases hreject with
    | refused h =>
      rw [h]
      exact ⟨fun _ => ⟨_, rfl⟩, Bool.noConfusion⟩
    | made h =>
      rw [h]
      exact ⟨Bool.noConfusion, fun _ => rfl⟩
  · have hreject := rejects_makeRemix extract buffer hseed
    rw [hrun] at hreject
    generalize (makeRemix extract drawn' buffer (settings.under .reject)).outcome = rejected at *
    cases hreject with
    | refusedFirst => exact .inr ⟨_, rfl⟩
    | failed => exact .inl rfl

/-- Three and a half seconds in bars of four beats, with a seed. -/
def inFours : RemixSettings Float :=
  { targetDurationSeconds := Setting.ofNumber 3.5, seed := Setting.ofNumber 1 }

/-- The twins stand at different places of a bar of four, so they are played in order with a
warning, or refused, whatever is drawn. -/
theorem makeRemix_degenerate_twins :
    ∃ r cause, (makeRemix (.constant twins) 0.25 fourFrames (inFours.under .warn)).outcome = .ok r
      ∧ r.isDegenerate = true
      ∧ warnings (makeRemix (.constant twins) 0.25 fourFrames (inFours.under .warn)).events = 1
      ∧ r.walk.path.size = 4 ∧ r.walk.path[3]? = some 1
      ∧ (makeRemix (.constant twins) 0.75 fourFrames (inFours.under .reject)).outcome
          = .error (.degenerate cause) := by
  have hrun : (match (makeRemix (.constant twins) 0.25 fourFrames (inFours.under .warn)).outcome with
      | .ok r => decide (r.isDegenerate = true ∧ r.walk.path.size = 4 ∧ r.beats.length = 2)
      | .error _ => false) = true := by decide +kernel
  split at hrun
  · rename_i r hr
    obtain ⟨hdegenerate, hsize, hlength⟩ := of_decide_eq_true hrun
    have hseed : (inFours.under .warn).seed = none → (0.75 : Float) = 0.25 := by rintro ⟨⟩
    obtain ⟨hmade, hpolicies, -⟩ :=
      makeRemix_degenerate (.constant twins) fourFrames (inFours.under .warn) hseed
    obtain ⟨-, -, hwarnings, horder⟩ := hmade r hr
    obtain ⟨cause, hcause⟩ := (hpolicies r hr).1 hdegenerate
    rw [hdegenerate] at hwarnings
    refine ⟨r, cause, hr, hdegenerate, hwarnings, hsize, ?_, hcause⟩
    rw [(horder hdegenerate).2 3 (by omega), hlength]
  · cases hrun

end EndlessRemix
