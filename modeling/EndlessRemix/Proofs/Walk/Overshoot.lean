import EndlessRemix.Proofs.Walk.Extension

/-!
# How far a walk goes beyond its target

Every visit emits at least one frame, so a walk makes no more visits than it is to emit frames. Its
last visit is made below the target, so what it emits is beyond the target by less than the frames
of that visit. Both are kept by every visit that is made below the target, wherever the draws lead.
-/

namespace EndlessRemix

variable {R σ : Type}

/-! ## The invariant -/

/-- A walk whose visits were all made below the target, over slices that have a frame. -/
structure Walker.Paced (slices : Array Slice) (target : ℕ) (w : Walker σ) : Prop where
  emitted_eq : w.emitted = (w.path.toList.map (countAt slices)).sum
  visited : ∀ here ∈ w.path, here < slices.size
  size_le_emitted : w.path.size ≤ w.emitted
  size_le_target : w.path.size ≤ target
  overshoot : ∀ last, w.path.back? = some last → w.emitted < target + countAt slices last

lemma Walker.paced_start (slices : Array Slice) (target : ℕ) (source : σ) :
    (Walker.start source).Paced slices target where
  emitted_eq := rfl
  visited _ h := absurd h (Array.not_mem_empty _)
  size_le_emitted := le_rfl
  size_le_target := Nat.zero_le target
  overshoot _ h := nomatch h

section

variable [Scalar R] {plan : WalkPlan R σ} {w next : Walker σ} {target fuel fuel' : ℕ}
  {journey : Journey σ}

/-- A visit below the target keeps the pace. -/
lemma Walker.Paced.visit (hpos : 0 < plan.slices.size)
    (hcount : ∀ s ∈ plan.slices, s.length = .int s.count ∧ 0 < s.count)
    (h : w.Paced plan.slices target) (htarget : w.emitted < target) (hvisits : w.Visits plan next) :
    next.Paced plan.slices target := by
  obtain ⟨position, -, hpath, hemitted, -, -⟩ := hvisits.path_eq
  have hhere := wrapped_lt hpos position
  have hframe := hvisits.emitted_lt hpos hcount
  have hsize := h.size_le_emitted
  constructor
  · exact hvisits.emitted_eq h.emitted_eq
  · intro here hmem
    rw [hpath, Array.mem_push] at hmem
    rcases hmem with hmem | rfl
    · exact h.visited here hmem
    · exact hhere
  · rw [hpath, Array.size_push]
    omega
  · rw [hpath, Array.size_push]
    omega
  · intro last hlast
    rw [hpath, Array.back?_push] at hlast
    rw [hemitted, ← Option.some.inj hlast]
    omega

/-- A run ends in a walk that has kept the pace and reached the target. -/
theorem Walker.Paced.run (hpos : 0 < plan.slices.size)
    (hcount : ∀ s ∈ plan.slices, s.length = .int s.count ∧ 0 < s.count)
    (h : w.Paced plan.slices target) (hfuel : target ≤ w.emitted + fuel)
    (hrun : Walker.run plan target fuel w = .ok journey) :
    ∃ last : Walker σ, journey = last.soFar ∧ last.Paced plan.slices target
      ∧ target ≤ last.emitted := by
  obtain ⟨last, hlast, hpaced, hreached⟩ :=
    Walker.run_induction (motive := fun v => v.Paced plan.slices target) hpos hcount
      (fun hv htarget hvisits => hv.visit hpos hcount htarget hvisits) h hrun
  exact ⟨last, hlast, hpaced, hreached hfuel⟩

/-- Once there are visits enough to reach the target, their number does not matter. -/
theorem Walker.run_of_enough (hpos : 0 < plan.slices.size)
    (hcount : ∀ s ∈ plan.slices, s.length = .int s.count ∧ 0 < s.count)
    (hfuel : target ≤ w.emitted + fuel) (hfuel' : target ≤ w.emitted + fuel')
    (hrun : Walker.run plan target fuel w = .ok journey) :
    Walker.run plan target fuel' w = .ok journey := by
  induction fuel generalizing w fuel' with
  | zero =>
    rw [Walker.run_of_le hfuel] at hrun ⊢
    exact hrun
  | succ fuel ih =>
    by_cases htarget : w.emitted < target
    · obtain ⟨next, hvisits, hrest⟩ := Walker.of_run_succ hpos hcount htarget hrun
      have hframe := hvisits.emitted_lt hpos hcount
      obtain ⟨fuel', rfl⟩ : ∃ k, fuel' = k + 1 := ⟨fuel' - 1, by omega⟩
      rw [Walker.run_of_visits hpos hcount htarget hvisits]
      exact ih (by omega) (by omega) hrest
    · rw [Walker.run_of_le (not_lt.mp htarget)] at hrun ⊢
      exact hrun

/-! ## The end of a walk -/

/-- A journey to `target` frames that ends in time: the walk needs no more visits than it is to emit
frames, emits what its path plays, and is beyond the target by less than its last visit. Without a
target it does nothing and draws nothing. -/
structure Journey.Stops (plan : WalkPlan R σ) (source : σ) (target : ℕ) (journey : Journey σ) :
    Prop where
  ends : ∀ visits, target ≤ visits →
    Walker.run plan target visits (Walker.start source) = .ok journey
  visited : ∀ here ∈ journey.path, here < plan.slices.size
  size_le : journey.path.size ≤ target
  emitted_eq : journey.emitted = .int (journey.path.toList.map (countAt plan.slices)).sum
  reached : target ≤ (journey.path.toList.map (countAt plan.slices)).sum
  overshoot : 0 < target → ∃ last, journey.path.back? = some last
    ∧ (journey.path.toList.map (countAt plan.slices)).sum < target + countAt plan.slices last
  idle : target = 0 → journey = ⟨#[], 0, 0, .int 0, source⟩

/-- A walk that can choose stops. -/
theorem exists_stops {source : σ} (target : ℕ) (hclosed : plan.Closed)
    (hchooses : plan.Chooses source) (hpos : 0 < plan.slices.size)
    (hcount : ∀ s ∈ plan.slices, s.length = .int s.count ∧ 0 < s.count) :
    ∃ journey, walk plan target source = .ok journey ∧ journey.Stops plan source target := by
  obtain ⟨journey, hwalk, -, -⟩ := walk_completes target hclosed hchooses hpos hcount
  have hvisits : target ≤ (Walker.start source).emitted + (target + 1) * (plan.patience + 1) :=
    Nat.le_add_left_of_le (plan.le_visits target)
  obtain ⟨last, rfl, hpaced, hreached⟩ :=
    (Walker.paced_start plan.slices target source).run hpos hcount hvisits hwalk
  refine ⟨_, hwalk, ?_⟩
  constructor
  · intro visits hle
    exact Walker.run_of_enough hpos hcount hvisits (Nat.le_add_left_of_le hle) hwalk
  · exact hpaced.visited
  · exact hpaced.size_le_target
  · exact congrArg (fun n : ℕ => Whole.int n) hpaced.emitted_eq
  · exact hpaced.emitted_eq ▸ hreached
  · intro htarget
    cases hlast : last.path.back? with
    | none =>
      -- an empty path emits nothing
      have hemitted := hpaced.emitted_eq
      rw [Array.back?_eq_none_iff.mp hlast] at hemitted
      have hzero : last.emitted = 0 := hemitted
      omega
    | some here => exact ⟨here, hlast, hpaced.emitted_eq ▸ hpaced.overshoot here hlast⟩
  · rintro rfl
    have hidle : walk plan 0 source = .ok (Walker.start source).soFar :=
      Walker.run_of_le (Nat.zero_le _) _
    exact Except.ok.inj (hwalk.symm.trans hidle)

end

/-! ## The end of a track -/

/-- A track walks to its target and stops. Over beats whose spans are inside the buffer and whose
neighbors are beats, with draws in `[0, 1)`, every walk stops, whatever its target is, and plays
spans from their starts to their stops; the walk to the target of a track is behind the track. There
is no track only without beats, if the buffer does not pass its check, or if the target is below
zero or longer than any list in the memory. Lists are shorter than `2 ^ 53`, so that doubles count
their entries. -/
theorem generateTrack_stops [Memory] {buffer : SampleBuffer Float} {beats : List (Beat Float)}
    {spans : List (Span Float)} {t : TrackOptions Float} {draws : Draws Float σ} {source : σ}
    (hframes : buffer.frameCount < 2 ^ 53) (hspans : spansOf buffer beats = .ok spans)
    (hinside : ∀ s ∈ spans, s.Inside buffer.frameCount)
    (hdest : ∀ beat ∈ beats, ∀ neighbor ∈ beat.neighbors,
      ∃ j < beats.length, neighbor.dest = .beat j)
    (hlists : ∀ beat ∈ beats, beat.neighbors.size < 2 ^ 53)
    (hduration : 0 < t.targetDurationSeconds)
    (htarget : Scalar.isFinite (frameTarget t.targetDurationSeconds buffer.sampleRate) = true)
    (hlow : 0 ≤ t.branchProbability) (hhigh : t.branchProbability ≤ 1)
    (hdraws : ∀ m, 0 ≤ draws.value m source ∧ draws.value m source < 1) :
    let plan := planOf beats spans t.branchProbability draws
    (∀ here span, spans[here]? = some span →
      Scalar.whole (span.stop - span.start) = .int (countAt plan.slices here))
    ∧ (beats ≠ [] → ∀ frames, ∃ journey, walk plan frames source = .ok journey
      ∧ journey.Stops plan source frames)
    ∧ ∃ target : ℤ,
      Scalar.whole (frameTarget t.targetDurationSeconds buffer.sampleRate) = .int target
      ∧ match beats, buffer.check with
        | [], _ => generateTrack buffer beats t draws source = .error .noBeats
        | _, .error fault => generateTrack buffer beats t draws source = .error (.buffer fault)
        | _, .ok _ =>
          if 0 ≤ target ∧ target ≤ Memory.longest then
            ∃ journey, walk plan target.toNat source = .ok journey
              ∧ journey.Stops plan source target.toNat
              ∧ generateTrack buffer beats t draws source = .ok (trackOf buffer plan target.toNat
                  (frameTarget t.targetDurationSeconds buffer.sampleRate) journey)
          else generateTrack buffer beats t draws source = .error .impossibleLength := by
  intro plan
  have ht : t.Valid := ⟨hduration, isFinite_of_frameTarget htarget, hlow, hhigh⟩
  have hwithin := within_slicesOf hframes hspans hinside
  have hstops : beats ≠ [] → ∀ frames, ∃ journey, walk plan frames source = .ok journey
      ∧ journey.Stops plan source frames := by
    intro hne frames
    have hpos : 0 < plan.slices.size := by
      rw [size_planOf t.branchProbability draws hspans]
      exact List.length_pos_iff.mpr hne
    exact exists_stops frames (closed_planOf t.branchProbability draws hspans hdest)
      (chooses_planOf hlists hdraws t.branchProbability) hpos
      fun s hs => ⟨(hwithin s hs).length_eq, (hwithin s hs).pos⟩
  have hlengths : ∀ here span, spans[here]? = some span →
      Scalar.whole (span.stop - span.start) = .int (countAt plan.slices here) := by
    intro here span hspan
    have hslice := hwithin span.slice (Array.mem_of_getElem? (getElem?_slicesOf hspan))
    exact (countAt_slicesOf hspan).symm ▸ hslice.length_eq
  obtain ⟨target, -, hwhole⟩ := exists_whole_frameTarget htarget
  refine ⟨hlengths, hstops, target, hwhole, ?_⟩
  cases beats with
  | nil => exact generateTrack_nil ht
  | cons beat rest =>
    have hne := List.cons_ne_nil beat rest
    cases hbuffer : buffer.check with
    | error fault => exact generateTrack_of_check ht hne hbuffer
    | ok _ =>
      dsimp only
      split_ifs with hroom
      · obtain ⟨journey, hwalk, hjourney⟩ := hstops hne target.toNat
        refine ⟨journey, hwalk, hjourney, ?_⟩
        rw [generateTrack_of_room ht hne hbuffer hspans hwhole hroom, hwalk]
      · exact generateTrack_of_no_room ht hne hbuffer hspans hwhole hroom

/-- Seven frames of the twins' four: the walk stops with the fourth visit, one frame beyond. -/
theorem generateTrack_stops_twins :
    ∃ spans journey, spansOf fourFrames twins = .ok spans
      ∧ walk (planOf twins spans 0.5 fourthLow) 7 0 = .ok journey
      ∧ journey.Stops (planOf twins spans 0.5 fourthLow) 0 7
      ∧ generateTrack fourFrames twins ⟨3.5, 0.5⟩ fourthLow 0
          = .ok (trackOf fourFrames (planOf twins spans 0.5 fourthLow) 7
              (frameTarget 3.5 fourFrames.sampleRate) journey) := by
  obtain ⟨spans, hok, hinside⟩ := exists_spans_twins
  have hcheck : fourFrames.check = .ok () := by rfl
  obtain ⟨-, -, target, htarget, hmade⟩ := @generateTrack_stops _ _ fourFrames twins spans
    ⟨3.5, 0.5⟩ fourthLow 0 (by decide) hok hinside dest_twins (by decide) (by decide +kernel)
    (by decide +kernel) (by decide +kernel) (by decide +kernel) value_fourthLow
  obtain rfl : 7 = target := Whole.int.inj (whole_sevenFrames.symm.trans htarget)
  rw [hcheck] at hmade
  dsimp only [twins] at hmade
  rw [if_pos (by decide)] at hmade
  obtain ⟨journey, hwalk, hstops, hmade⟩ := hmade
  exact ⟨spans, journey, hok, hwalk, hstops, hmade⟩

/-- Without beats there is no walk to a target of seven frames. Ten to the 300 seconds are a finite
target, but no memory has room for them: there is no track whose walk emits as many frames. -/
theorem not_generateTrack_stops :
    (Playable fourFrames [] ⟨3.5, 0.5⟩ fourthLow 0
      ∧ ¬∃ (_ : Memory) (track : Track Float ℕ),
          generateTrack fourFrames [] ⟨3.5, 0.5⟩ fourthLow 0 = .ok track)
    ∧ Playable fourFrames twins ⟨1e300, 0.5⟩ fourthLow 0
      ∧ ¬∃ (_ : Memory) (track : Track Float ℕ) (target emitted : ℤ),
          generateTrack fourFrames twins ⟨1e300, 0.5⟩ fourthLow 0 = .ok track
            ∧ Scalar.whole track.report.target = .int target
            ∧ track.report.emitted = .int emitted ∧ target ≤ emitted
            ∧ track.report.path.size ≤ target := by
  refine ⟨⟨playable_nil, ?_⟩,
    playable_twins (by decide +kernel) (by decide +kernel) (by decide +kernel), ?_⟩
  · rintro ⟨memory, track, htrack⟩
    rw [generateTrack_playable_nil] at htrack
    cases htrack
  · rintro ⟨memory, track, target, emitted, htrack, -⟩
    rw [generateTrack_ages (by decide +kernel) (by decide +kernel)] at htrack
    cases htrack

end EndlessRemix
