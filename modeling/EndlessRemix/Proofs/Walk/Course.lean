import EndlessRemix.Proofs.Except
import EndlessRemix.Walk.Track
import Mathlib

/-!
# The course of a track

A track is made, or it fails with the fault of the first of its inputs that does not pass, or
because no list in the memory can be that long, or because its walk is lost.
-/

namespace EndlessRemix

variable {R σ : Type} [Scalar R]

/-! ## The making of a track -/

/-- The track that a journey over a plan gives. -/
def trackOf (buffer : SampleBuffer R) (plan : WalkPlan R σ) (frames : ℕ) (target : R)
    (journey : Journey σ) : Track R σ where
  output :=
    { sampleRate := buffer.sampleRate
      channels := buffer.channels.map (renderChannel plan.slices journey.path frames) }
  report :=
    { path := journey.path
      jumps := journey.jumps
      wraparounds := journey.wraparounds
      emitted := journey.emitted
      target }
  source := journey.source

/-- A duration and a probability that a track can have. -/
structure TrackOptions.Valid (t : TrackOptions R) : Prop where
  pos : 0 < t.targetDurationSeconds
  finite : Scalar.isFinite t.targetDurationSeconds = true
  probability : 0 ≤ t.branchProbability ∧ t.branchProbability ≤ 1

lemma not_duration_fault {seconds : R} (hpos : 0 < seconds)
    (hfinite : Scalar.isFinite seconds = true) :
    ¬(¬0 < seconds ∨ ¬Scalar.isFinite seconds = true) := by
  rintro (h | h)
  · exact h hpos
  · exact h hfinite

lemma TrackOptions.Valid.not_duration_fault {t : TrackOptions R} (h : t.Valid) :
    ¬(¬0 < t.targetDurationSeconds ∨ ¬Scalar.isFinite t.targetDurationSeconds = true) :=
  EndlessRemix.not_duration_fault h.pos h.finite

section

variable [Memory] {buffer : SampleBuffer R} {beats : List (Beat R)} {t : TrackOptions R}
  {draws : Draws R σ} {source : σ}

/-- Without beats there is no track. -/
theorem generateTrack_nil (ht : t.Valid) :
    generateTrack buffer [] t draws source = .error .noBeats := by
  unfold generateTrack
  rw [if_neg ht.not_duration_fault, if_neg (not_not.mpr ht.probability)]
  rfl

/-- A buffer that does not pass its check gives no track. -/
theorem generateTrack_of_check {fault : BufferFault} (ht : t.Valid) (hbeats : beats ≠ [])
    (hbuffer : buffer.check = .error fault) :
    generateTrack buffer beats t draws source = .error (.buffer fault) := by
  have hne : ¬beats.isEmpty = true := by
    rwa [List.isEmpty_iff]
  unfold generateTrack
  rw [if_neg ht.not_duration_fault, if_neg (not_not.mpr ht.probability), if_neg hne, hbuffer]
  rfl

/-- A beat without a span gives no track. -/
theorem generateTrack_of_spansOf {fault : SpanFault R} (ht : t.Valid) (hbeats : beats ≠ [])
    (hbuffer : buffer.check = .ok ()) (hspans : spansOf buffer beats = .error fault) :
    generateTrack buffer beats t draws source = .error (.span fault) := by
  have hne : ¬beats.isEmpty = true := by
    rwa [List.isEmpty_iff]
  unfold generateTrack
  rw [if_neg ht.not_duration_fault, if_neg (not_not.mpr ht.probability), if_neg hne, hbuffer,
    hspans]
  rfl

/-- Once its inputs pass, a track depends on the target length and the walk. -/
theorem generateTrack_eq {spans : List (Span R)} (ht : t.Valid) (hbeats : beats ≠ [])
    (hbuffer : buffer.check = .ok ()) (hspans : spansOf buffer beats = .ok spans) :
    generateTrack buffer beats t draws source =
      match (Scalar.whole (frameTarget t.targetDurationSeconds buffer.sampleRate)).toLength? with
      | none => .error .impossibleLength
      | some frames =>
        match walk (planOf beats spans t.branchProbability draws) frames source with
        | .error lost => .error (.lost lost)
        | .ok journey => .ok (trackOf buffer (planOf beats spans t.branchProbability draws) frames
            (frameTarget t.targetDurationSeconds buffer.sampleRate) journey) := by
  have hne : ¬beats.isEmpty = true := by
    rwa [List.isEmpty_iff]
  unfold generateTrack
  rw [if_neg ht.not_duration_fault, if_neg (not_not.mpr ht.probability), if_neg hne, hbuffer,
    hspans]
  cases hframes : (Scalar.whole
      (frameTarget t.targetDurationSeconds buffer.sampleRate)).toLength? with
  | none =>
    simp only [Except.mapError, bind, Except.bind, hframes]
    rfl
  | some frames =>
    cases hwalk : walk (planOf beats spans t.branchProbability draws) frames source with
    | error lost =>
      simp only [Except.mapError, bind, Except.bind, hframes, hwalk]
    | ok journey =>
      simp only [Except.mapError, bind, Except.bind, hframes, hwalk]
      rfl

/-- A track that the memory has room for depends on its walk. -/
lemma generateTrack_of_room {spans : List (Span R)} {target : ℤ} (ht : t.Valid)
    (hbeats : beats ≠ []) (hbuffer : buffer.check = .ok ())
    (hspans : spansOf buffer beats = .ok spans)
    (hwhole : Scalar.whole (frameTarget t.targetDurationSeconds buffer.sampleRate) = .int target)
    (hroom : 0 ≤ target ∧ target ≤ Memory.longest) :
    generateTrack buffer beats t draws source =
      match walk (planOf beats spans t.branchProbability draws) target.toNat source with
      | .error lost => .error (.lost lost)
      | .ok journey => .ok (trackOf buffer (planOf beats spans t.branchProbability draws)
          target.toNat (frameTarget t.targetDurationSeconds buffer.sampleRate) journey) := by
  rw [generateTrack_eq ht hbeats hbuffer hspans, hwhole, Whole.toLength?_int, if_pos hroom]

/-- A track that the memory has no room for is not made. -/
lemma generateTrack_of_no_room {spans : List (Span R)} {target : ℤ} (ht : t.Valid)
    (hbeats : beats ≠ []) (hbuffer : buffer.check = .ok ())
    (hspans : spansOf buffer beats = .ok spans)
    (hwhole : Scalar.whole (frameTarget t.targetDurationSeconds buffer.sampleRate) = .int target)
    (hroom : ¬(0 ≤ target ∧ target ≤ Memory.longest)) :
    generateTrack buffer beats t draws source = .error .impossibleLength := by
  rw [generateTrack_eq ht hbeats hbuffer hspans, hwhole, Whole.toLength?_int, if_neg hroom]

/-! ## Courses -/

variable (buffer beats t draws source) in
/-- What becomes of a track, by the first of its inputs that does not pass. -/
inductive TrackCourse : Except (TrackFault R σ) (Track R σ) → Prop where
  | duration
      (h : ¬0 < t.targetDurationSeconds ∨ ¬Scalar.isFinite t.targetDurationSeconds = true) :
      TrackCourse (.error (.duration t.targetDurationSeconds))
  | probability (h : ¬(0 ≤ t.branchProbability ∧ t.branchProbability ≤ 1)) :
      TrackCourse (.error (.probability t.branchProbability))
  | noBeats (h : beats = []) : TrackCourse (.error .noBeats)
  | buffer {fault : BufferFault} (h : buffer.check = .error fault) :
      TrackCourse (.error (.buffer fault))
  | span {fault : SpanFault R} (h : spansOf buffer beats = .error fault) :
      TrackCourse (.error (.span fault))
  | impossibleLength
      (h : (Scalar.whole (frameTarget t.targetDurationSeconds buffer.sampleRate)).toLength?
        = none) :
      TrackCourse (.error .impossibleLength)
  | lost {spans : List (Span R)} {frames : ℕ} {lost : LostWalk σ} (hbeats : beats ≠ [])
      (hspans : spansOf buffer beats = .ok spans)
      (hwalk : walk (planOf beats spans t.branchProbability draws) frames source = .error lost) :
      TrackCourse (.error (.lost lost))
  | made {spans : List (Span R)} {frames : ℕ} {journey : Journey σ} (hbeats : beats ≠ [])
      (hbuffer : buffer.check = .ok ()) (hspans : spansOf buffer beats = .ok spans)
      (hframes : (Scalar.whole (frameTarget t.targetDurationSeconds buffer.sampleRate)).toLength?
        = some frames)
      (hwalk : walk (planOf beats spans t.branchProbability draws) frames source = .ok journey) :
      TrackCourse (.ok (trackOf buffer (planOf beats spans t.branchProbability draws) frames
        (frameTarget t.targetDurationSeconds buffer.sampleRate) journey))

/-- A track takes one of the courses. -/
theorem course_of_generateTrack {outcome : Except (TrackFault R σ) (Track R σ)}
    (h : generateTrack buffer beats t draws source = outcome) :
    TrackCourse buffer beats t draws source outcome := by
  subst h
  by_cases hduration :
      ¬0 < t.targetDurationSeconds ∨ ¬Scalar.isFinite t.targetDurationSeconds = true
  · rw [generateTrack, if_pos hduration]
    exact .duration hduration
  by_cases hprob : ¬(0 ≤ t.branchProbability ∧ t.branchProbability ≤ 1)
  · rw [generateTrack, if_neg hduration, if_pos hprob]
    exact .probability hprob
  rw [not_or, not_not, not_not] at hduration
  rw [not_not] at hprob
  have ht : t.Valid := ⟨hduration.1, hduration.2, hprob⟩
  by_cases hbeats : beats = []
  · subst hbeats
    rw [generateTrack_nil ht]
    exact .noBeats rfl
  cases hbuffer : buffer.check with
  | error fault =>
    rw [generateTrack_of_check ht hbeats hbuffer]
    exact .buffer hbuffer
  | ok u =>
    cases hspans : spansOf buffer beats with
    | error fault =>
      rw [generateTrack_of_spansOf ht hbeats hbuffer hspans]
      exact .span hspans
    | ok spans =>
      rw [generateTrack_eq ht hbeats hbuffer hspans]
      cases hframes : (Scalar.whole
          (frameTarget t.targetDurationSeconds buffer.sampleRate)).toLength? with
      | none => exact .impossibleLength hframes
      | some frames =>
        dsimp only
        cases hwalk : walk (planOf beats spans t.branchProbability draws) frames source with
        | error lost => exact .lost hbeats hspans hwalk
        | ok journey => exact .made hbeats hbuffer hspans hframes hwalk

/-- A track comes from inputs that pass, spans for all beats, and a walk over them. -/
theorem of_generateTrack {track : Track R σ}
    (h : generateTrack buffer beats t draws source = .ok track) :
    ∃ spans frames journey, beats ≠ [] ∧ buffer.check = .ok ()
      ∧ spansOf buffer beats = .ok spans
      ∧ (Scalar.whole (frameTarget t.targetDurationSeconds buffer.sampleRate)).toLength?
          = some frames
      ∧ walk (planOf beats spans t.branchProbability draws) frames source = .ok journey
      ∧ track = trackOf buffer (planOf beats spans t.branchProbability draws) frames
          (frameTarget t.targetDurationSeconds buffer.sampleRate) journey := by
  cases course_of_generateTrack h with
  | made hbeats hbuffer hspans hframes hwalk =>
    exact ⟨_, _, _, hbeats, hbuffer, hspans, hframes, hwalk, rfl⟩

end

end EndlessRemix
