import EndlessRemix.Proofs.Audio.Buffer
import EndlessRemix.Proofs.Random
import EndlessRemix.Proofs.Walk.Progress
import EndlessRemix.Proofs.Walk.Span
import EndlessRemix.Proofs.Walk.Track

/-!
# Where the frames of a track come from

A track over spans inside the buffer is as long as it was asked to be, and every one of its frames
is a frame of the buffer: the one that the visit at its place plays there, the same in all channels.
A track that the memory has no room for is not made.
-/

namespace EndlessRemix

/-- The slices of spans, by position. -/
def slicesOf (spans : List (Span Float)) : Array Slice := (spans.map Span.slice).toArray

/-- The frames that the visits before position `k` of a path play. -/
def framesBefore (spans : List (Span Float)) (path : Array ℕ) (k : ℕ) : ℕ :=
  amountBefore (countAt (slicesOf spans)) path.toList k

/-- An output of `frames` frames in which every frame is the one that the visit at its place plays
there: the visit is the only one at that place and is the same in all channels. -/
structure Plays (buffer output : SampleBuffer Float) (spans : List (Span Float)) (path : Array ℕ)
    (frames : ℕ) : Prop where
  channels : output.channels.length = buffer.channels.length
  size : ∀ out ∈ output.channels, out.size = frames
  origin : ∀ f < frames, ∃ (k here : ℕ) (span : Span Float),
    path[k]? = some here ∧ spans[here]? = some span
      ∧ span.slice.Within buffer.frameCount
      ∧ framesBefore spans path k ≤ f ∧ f < framesBefore spans path k + span.slice.count
      ∧ (∀ (l there : ℕ) (other : Span Float), path[l]? = some there →
          spans[there]? = some other → framesBefore spans path l ≤ f →
          f < framesBefore spans path l + other.slice.count → l = k)
      ∧ ∀ (c : ℕ) (channel out : Array Sample), buffer.channels[c]? = some channel →
          output.channels[c]? = some out → ∃ sample, out[f]? = some sample
            ∧ channel[span.slice.first + (f - framesBefore spans path k)]? = some sample

section

variable {σ : Type} {buffer : SampleBuffer Float} {beats : List (Beat Float)}
  {spans : List (Span Float)} {t : TrackOptions Float} {draws : Draws Float σ} {source : σ}

/-- Every span is the span of a beat. -/
lemma exists_beat_of_span {span : Span Float} (hspans : spansOf buffer beats = .ok spans)
    (hmem : span ∈ spans) :
    ∃ beat : Beat Float,
      beat.span buffer.sampleRate (Scalar.ofNat buffer.frameCount) = .ok span := by
  obtain ⟨hlen, hget⟩ := List.forall₂_iff_get.mp (forall₂_spansOf hspans)
  obtain ⟨i, hi, rfl⟩ := List.mem_iff_getElem.mp hmem
  exact ⟨_, hget i (by omega) hi⟩

/-- Spans inside the buffer make slices inside its channels. -/
lemma within_slicesOf (hframes : buffer.frameCount < 2 ^ 53)
    (hspans : spansOf buffer beats = .ok spans)
    (hinside : ∀ s ∈ spans, s.Inside buffer.frameCount) :
    ∀ s ∈ slicesOf spans, s.Within buffer.frameCount := by
  intro s hs
  rw [slicesOf, List.mem_toArray, List.mem_map] at hs
  obtain ⟨span, hmem, rfl⟩ := hs
  obtain ⟨beat, hspan⟩ := exists_beat_of_span hspans hmem
  exact within_slice hframes hspan (hinside span hmem)

/-- Draws in `[0, 1)` choose a neighbor of every beat that has one. -/
lemma chooses_planOf (hlists : ∀ beat ∈ beats, beat.neighbors.size < 2 ^ 53)
    (hdraws : ∀ m, 0 ≤ draws.value m source ∧ draws.value m source < 1) (p : Float) :
    (planOf beats spans p draws).Chooses source := by
  intro here m hsize
  rw [neighborsAt_planOf] at hsize ⊢
  cases hbeat : beats[here]? with
  | none =>
    rw [hbeat] at hsize
    exact absurd hsize (lt_irrefl 0)
  | some beat =>
    rw [hbeat, Option.map_some, Option.getD_some] at hsize
    rw [Option.map_some, Option.getD_some]
    obtain ⟨k, hk, hpick⟩ := whole_pickIndex (hdraws m).1 (hdraws m).2 hsize
      (hlists beat (List.mem_of_getElem? hbeat))
    refine ⟨beat.neighbors[k], ?_⟩
    have hdraw : (planOf beats spans p draws).draws = draws := rfl
    rw [chooseNeighbor?, hdraw, hpick]
    exact Array.getElem?_eq_getElem hk

lemma getElem?_slicesOf {i : ℕ} {s : Span Float} (h : spans[i]? = some s) :
    (slicesOf spans)[i]? = some s.slice := by
  rw [slicesOf, List.getElem?_toArray, List.getElem?_map, h]
  rfl

lemma countAt_slicesOf {i : ℕ} {s : Span Float} (h : spans[i]? = some s) :
    countAt (slicesOf spans) i = s.slice.count := by
  rw [countAt, getElem?_slicesOf h]
  rfl

/-- Every frame that a path plays belongs to one visit. -/
lemma exists_visit {path : Array ℕ} {f : ℕ}
    (hvisited : ∀ here ∈ path, here < (slicesOf spans).size)
    (hf : f < (path.toList.map (countAt (slicesOf spans))).sum) :
    ∃ (k here : ℕ) (span : Span Float), path[k]? = some here ∧ spans[here]? = some span
      ∧ framesBefore spans path k ≤ f ∧ f < framesBefore spans path k + span.slice.count
      ∧ ∀ (l there : ℕ) (other : Span Float), path[l]? = some there →
          spans[there]? = some other → framesBefore spans path l ≤ f →
          f < framesBefore spans path l + other.slice.count → l = k := by
  obtain ⟨k, here, hk, hle, hlt⟩ := exists_part hf
  have hhere : here < spans.length := by
    have := hvisited here (Array.mem_toList_iff.mp (List.mem_of_getElem? hk))
    rwa [slicesOf, List.size_toArray, List.length_map] at this
  have hspan : spans[here]? = some spans[here] := List.getElem?_eq_getElem hhere
  refine ⟨k, here, spans[here], Array.getElem?_toList ▸ hk, hspan, hle,
    countAt_slicesOf hspan ▸ hlt, ?_⟩
  intro l there other hl hother hfl hlf
  rw [← Array.getElem?_toList] at hl
  rw [← countAt_slicesOf hother] at hlf
  exact part_unique hl hk hfl hlf hle hlt

/-- Each channel of a track is rendered from the channel of the buffer at its place. -/
lemma eq_renderChannel_of_trackOf {plan : WalkPlan Float σ} {journey : Journey σ} {frames c : ℕ}
    {target : Float} {channel out : Array Sample} (hc : buffer.channels[c]? = some channel)
    (hout : (trackOf buffer plan frames target journey).output.channels[c]? = some out) :
    out = renderChannel plan.slices journey.path frames channel := by
  have hmap : (buffer.channels.map (renderChannel plan.slices journey.path frames))[c]?
      = some out := hout
  rw [List.getElem?_map, hc] at hmap
  exact (Option.some.inj hmap).symm

/-- A journey that visits beats and plays long enough gives an output that it plays. -/
theorem plays_trackOf {journey : Journey σ} {frames : ℕ} {target p : Float}
    (hbuffer : buffer.check = .ok ())
    (hwithin : ∀ s ∈ slicesOf spans, s.Within buffer.frameCount)
    (hvisited : ∀ here ∈ journey.path, here < (slicesOf spans).size)
    (hlong : frames ≤ (journey.path.toList.map (countAt (slicesOf spans))).sum) :
    Plays buffer (trackOf buffer (planOf beats spans p draws) frames target journey).output spans
      journey.path frames := by
  have hchannel : ∀ channel ∈ buffer.channels, ∀ s ∈ slicesOf spans, s.Within channel.size := by
    intro channel hmem
    rw [size_of_check hbuffer channel hmem]
    exact hwithin
  refine ⟨List.length_map _, ?_, ?_⟩
  · intro out hout
    obtain ⟨channel, hmem, rfl⟩ := List.mem_map.mp hout
    exact size_renderChannel (hchannel channel hmem) hlong
  · intro f hf
    obtain ⟨k, here, span, hk, hspan, hle, hlt, hunique⟩ :=
      exists_visit hvisited (lt_of_lt_of_le hf hlong)
    have hslice := getElem?_slicesOf hspan
    have hin := hwithin _ (Array.mem_of_getElem? hslice)
    refine ⟨k, here, span, hk, hspan, hin, hle, hlt, hunique, ?_⟩
    intro c channel out hc hout
    have hmem := List.mem_of_getElem? hc
    have hrender : out = renderChannel (slicesOf spans) journey.path frames channel := by
      rw [eq_renderChannel_of_trackOf hc hout]
      rfl
    have hplace : span.slice.first + (f - framesBefore spans journey.path k) < channel.size := by
      have hbound := hin.le
      rw [size_of_check hbuffer channel hmem]
      omega
    refine ⟨_, ?_, Array.getElem?_eq_getElem hplace⟩
    rw [hrender, getElem?_renderChannel (hchannel channel hmem) hlong hf hk hslice hle
      (countAt_slicesOf hspan ▸ hlt)]
    exact Array.getElem?_eq_getElem hplace

/-- Only a finite duration has a finite number of frames. -/
lemma isFinite_of_frameTarget {duration rate : Float}
    (h : Scalar.isFinite (frameTarget duration rate) = true) :
    Scalar.isFinite duration = true := by
  rw [Double.isFinite_iff] at h ⊢
  obtain ⟨q, hq⟩ := h
  cases hduration : Double.value? duration with
  | some a => exact ⟨a, rfl⟩
  | none =>
    rw [frameTarget, Double.value?_round_eq_none (Double.value?_mul_eq_none hduration)] at hq
    cases hq

/-- A finite target is an integer. -/
lemma exists_whole_frameTarget {duration rate : Float}
    (hfinite : Scalar.isFinite (frameTarget duration rate) = true) :
    ∃ target : ℤ, Double.value? (frameTarget duration rate) = some (target : ℚ)
      ∧ Scalar.whole (frameTarget duration rate) = .int target := by
  obtain ⟨q, hq⟩ := (Double.isFinite_iff _).mp hfinite
  obtain ⟨k, rfl⟩ := Double.integer_of_round hq
  exact ⟨k, hq, Double.whole_of_value hq⟩

/-- The output of a track over beats whose spans are inside the buffer and whose neighbors are
beats, walked with draws in `[0, 1)`: as many channels as the buffer has, each of the target number
of frames, and every frame copied from the buffer at the place that its visit gives it. Only no
beats, a target below zero, which a negative sample rate gives, or one that is longer than any list
in the memory, give no track. Lists are shorter than `2 ^ 53`, so that doubles count their
entries. -/
theorem generateTrack_plays [Memory] (hbuffer : buffer.check = .ok ())
    (hframes : buffer.frameCount < 2 ^ 53) (hspans : spansOf buffer beats = .ok spans)
    (hinside : ∀ s ∈ spans, s.Inside buffer.frameCount)
    (hdest : ∀ beat ∈ beats, ∀ neighbor ∈ beat.neighbors,
      ∃ j < beats.length, neighbor.dest = .beat j)
    (hlists : ∀ beat ∈ beats, beat.neighbors.size < 2 ^ 53)
    (hduration : 0 < t.targetDurationSeconds)
    (htarget : Scalar.isFinite (frameTarget t.targetDurationSeconds buffer.sampleRate) = true)
    (hlow : 0 ≤ t.branchProbability) (hhigh : t.branchProbability ≤ 1)
    (hdraws : ∀ m, 0 ≤ draws.value m source ∧ draws.value m source < 1) :
    ∃ target : ℤ,
      Scalar.whole (frameTarget t.targetDurationSeconds buffer.sampleRate) = .int target
      ∧ if beats = [] then generateTrack buffer beats t draws source = .error .noBeats
        else if 0 ≤ target ∧ target ≤ Memory.longest then
          ∃ track, generateTrack buffer beats t draws source = .ok track
            ∧ Scalar.whole track.report.target = .int target
            ∧ Plays buffer track.output spans track.report.path target.toNat
        else generateTrack buffer beats t draws source = .error .impossibleLength := by
  have ht : t.Valid := ⟨hduration, isFinite_of_frameTarget htarget, hlow, hhigh⟩
  obtain ⟨target, -, hwhole⟩ := exists_whole_frameTarget htarget
  refine ⟨target, hwhole, ?_⟩
  split_ifs with hbeats hroom
  · subst hbeats
    exact generateTrack_nil ht
  · rw [generateTrack_of_room ht hbeats hbuffer hspans hwhole hroom]
    have hpos : 0 < (planOf beats spans t.branchProbability draws).slices.size := by
      rw [size_planOf t.branchProbability draws hspans]
      exact List.length_pos_iff.mpr hbeats
    have hwithin := within_slicesOf hframes hspans hinside
    obtain ⟨journey, hwalk, hvisited, hlong⟩ :=
      walk_completes target.toNat (closed_planOf t.branchProbability draws hspans hdest)
        (chooses_planOf hlists hdraws t.branchProbability) hpos
        fun s hs => ⟨(hwithin s hs).length_eq, (hwithin s hs).pos⟩
    rw [hwalk]
    exact ⟨_, rfl, hwhole, plays_trackOf hbuffer hwithin hvisited hlong⟩
  · exact generateTrack_of_no_room ht hbeats hbuffer hspans hwhole hroom

end

/-! ## The twins -/

section

variable {σ : Type}

lemma exists_spans_twins : ∃ spans, spansOf fourFrames twins = .ok spans
    ∧ ∀ s ∈ spans, s.Inside fourFrames.frameCount := by
  have hspans : (match spansOf fourFrames twins with
      | .ok spans => decide (∀ s ∈ spans, 0 ≤ s.start ∧ s.start < s.stop
          ∧ s.stop ≤ Scalar.ofNat fourFrames.frameCount)
      | .error _ => false) = true := by decide +kernel
  split at hspans
  · rename_i spans hok
    have hinside := of_decide_eq_true hspans
    exact ⟨spans, hok, fun s hs => ⟨(hinside s hs).1, (hinside s hs).2.1, (hinside s hs).2.2⟩⟩
  · cases hspans

lemma dest_twins : ∀ beat ∈ twins, ∀ neighbor ∈ beat.neighbors,
    ∃ j < twins.length, neighbor.dest = .beat j := by
  simp [twins]

lemma value_fourthLow (m : ℕ) : 0 ≤ fourthLow.value m 0 ∧ fourthLow.value m 0 < 1 := by
  show 0 ≤ (if _ = 3 then (0.25 : Float) else 0.75)
    ∧ (if _ = 3 then (0.25 : Float) else 0.75) < 1
  split_ifs <;> decide +kernel

lemma whole_sevenFrames : Scalar.whole (frameTarget 3.5 fourFrames.sampleRate) = .int 7 := by
  decide +kernel

/-- Seven frames of the twins' four: all of them, and three once more. -/
theorem generateTrack_plays_twins :
    ∃ spans track, spansOf fourFrames twins = .ok spans
      ∧ generateTrack fourFrames twins ⟨3.5, 0.5⟩ fourthLow 0 = .ok track
      ∧ Plays fourFrames track.output spans track.report.path 7 := by
  obtain ⟨spans, hok, hinside⟩ := exists_spans_twins
  obtain ⟨target, htarget, htrack⟩ := @generateTrack_plays _ fourFrames twins spans ⟨3.5, 0.5⟩
    fourthLow 0 _ (by rfl) (by decide) hok hinside dest_twins (by decide) (by decide +kernel)
    (by decide +kernel) (by decide +kernel) (by decide +kernel) value_fourthLow
  obtain rfl : 7 = target := Whole.int.inj (whole_sevenFrames.symm.trans htarget)
  rw [if_neg (by decide), if_pos (by decide)] at htrack
  obtain ⟨track, hrun, -, hplays⟩ := htrack
  exact ⟨spans, track, hok, hrun, hplays⟩

/-! ## A track that no memory has room for -/

/-- At two frames a second, ten to the 300 seconds have a finite number of frames, but more than any
list can have. -/
lemma whole_ages : ∃ target : ℤ,
    Scalar.whole (frameTarget 1e300 fourFrames.sampleRate) = .int target ∧ 2 ^ 51 ≤ target :=
  ⟨(Scalar.whole (frameTarget 1e300 fourFrames.sampleRate)).toNat, by decide +kernel,
    by decide +kernel⟩

/-- For so long the twins are not walked, with whatever probability and draws. -/
lemma generateTrack_ages [Memory] {p : Float} (hlow : 0 ≤ p) (hhigh : p ≤ 1)
    (draws : Draws Float σ) (source : σ) :
    generateTrack fourFrames twins ⟨1e300, p⟩ draws source = .error .impossibleLength := by
  obtain ⟨spans, hspans, -⟩ := exists_spans_twins
  obtain ⟨target, hwhole, hlong⟩ := whole_ages
  have hpos : (0 : Float) < 1e300 := by decide +kernel
  have hfinite : Scalar.isFinite (1e300 : Float) = true := by decide +kernel
  refine generateTrack_of_no_room ⟨hpos, hfinite, hlow, hhigh⟩ (by decide) (by rfl) hspans hwhole ?_
  have hbound : Memory.longest < 2 ^ 51 := Memory.longest_lt
  omega

/-- What a track asks for, the room aside: a good buffer, beats inside it that lead to beats, a
finite target, a probability, and draws in `[0, 1)`. -/
structure Playable (buffer : SampleBuffer Float) (beats : List (Beat Float))
    (t : TrackOptions Float) (draws : Draws Float σ) (source : σ) : Prop where
  check : buffer.check = .ok ()
  spans : ∃ spans, spansOf buffer beats = .ok spans ∧ ∀ s ∈ spans, s.Inside buffer.frameCount
  dest : ∀ beat ∈ beats, ∀ neighbor ∈ beat.neighbors, ∃ j < beats.length, neighbor.dest = .beat j
  duration : 0 < t.targetDurationSeconds
  target : Scalar.isFinite (frameTarget t.targetDurationSeconds buffer.sampleRate) = true
  probability : 0 ≤ t.branchProbability ∧ t.branchProbability ≤ 1
  draws : ∀ m, 0 ≤ draws.value m source ∧ draws.value m source < 1

lemma playable_twins {t : TrackOptions Float} (hduration : 0 < t.targetDurationSeconds)
    (htarget : Scalar.isFinite (frameTarget t.targetDurationSeconds fourFrames.sampleRate) = true)
    (hprobability : 0 ≤ t.branchProbability ∧ t.branchProbability ≤ 1) :
    Playable fourFrames twins t fourthLow 0 :=
  ⟨by rfl, exists_spans_twins, dest_twins, hduration, htarget, hprobability, value_fourthLow⟩

lemma playable_nil : Playable fourFrames [] ⟨3.5, 0.5⟩ fourthLow 0 where
  check := by rfl
  spans := ⟨[], rfl, fun _ hs => absurd hs List.not_mem_nil⟩
  dest := fun _ hbeat => absurd hbeat List.not_mem_nil
  duration := by decide +kernel
  target := by decide +kernel
  probability := by decide +kernel
  draws := value_fourthLow

/-- Without beats there is no track. -/
lemma generateTrack_playable_nil [Memory] :
    generateTrack fourFrames [] ⟨3.5, 0.5⟩ fourthLow 0 = .error .noBeats :=
  generateTrack_nil ⟨playable_nil.duration, by decide +kernel, playable_nil.probability⟩

/-- So not every finite target has a track: no beats have one, and the twins have none that lasts
for ten to the 300 seconds. -/
theorem not_generateTrack_plays :
    (Playable fourFrames [] ⟨3.5, 0.5⟩ fourthLow 0
      ∧ ¬∃ (_ : Memory) (track : Track Float ℕ),
          generateTrack fourFrames [] ⟨3.5, 0.5⟩ fourthLow 0 = .ok track)
    ∧ Playable fourFrames twins ⟨1e300, 0.5⟩ fourthLow 0
      ∧ ¬∃ (_ : Memory) (track : Track Float ℕ),
          generateTrack fourFrames twins ⟨1e300, 0.5⟩ fourthLow 0 = .ok track := by
  refine ⟨⟨playable_nil, ?_⟩,
    playable_twins (by decide +kernel) (by decide +kernel) (by decide +kernel), ?_⟩
  · rintro ⟨memory, track, htrack⟩
    rw [generateTrack_playable_nil] at htrack
    cases htrack
  · rintro ⟨memory, track, htrack⟩
    rw [generateTrack_ages (by decide +kernel) (by decide +kernel)] at htrack
    cases htrack

end

end EndlessRemix
