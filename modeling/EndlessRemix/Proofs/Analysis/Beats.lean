import EndlessRemix.Analysis.Beats
import EndlessRemix.Proofs.Analysis.Onset
import EndlessRemix.Proofs.Audio.Buffer
import EndlessRemix.Proofs.Except

/-!
# How beats are found

The beats of a buffer stand for pairs of consecutive onsets that are at least a window apart, in
order. Of a window that is a power of two the transform is known to exist, unless its stages are too
long to be counted; then, and only then, a beat cannot be measured. A window that the memory has no
room for gives no beats at all.
-/

namespace EndlessRemix

/-! ## Segments -/

section

variable {least : ℕ} {positions : List ℕ} {p : ℕ × ℕ}

lemma mem_of_mem_segments (h : p ∈ segments least positions) :
    p.1 ∈ positions ∧ p.2 ∈ positions ∧ least ≤ p.2 - p.1 := by
  induction positions with
  | nil => cases h
  | cons start rest ih =>
    cases rest with
    | nil => cases h
    | cons stop rest =>
      have htail : p ∈ segments least (stop :: rest) →
          p.1 ∈ start :: stop :: rest ∧ p.2 ∈ start :: stop :: rest ∧ least ≤ p.2 - p.1 := by
        intro hp
        obtain ⟨h1, h2, h3⟩ := ih hp
        exact ⟨List.mem_cons_of_mem _ h1, List.mem_cons_of_mem _ h2, h3⟩
      rw [segments] at h
      split_ifs at h with hlt
      · exact htail h
      · rcases List.mem_cons.mp h with rfl | hp
        · exact ⟨by simp, by simp, not_lt.mp hlt⟩
        · exact htail hp

/-- A segment starts where another one ends, or later. -/
theorem pairwise_segments (hpositions : positions.Pairwise (· < ·)) :
    (segments least positions).Pairwise fun p q => p.2 ≤ q.1 := by
  induction positions with
  | nil => exact List.Pairwise.nil
  | cons start rest ih =>
    cases rest with
    | nil => exact List.Pairwise.nil
    | cons stop rest =>
      have hrest := (List.pairwise_cons.mp hpositions).2
      rw [segments]
      split_ifs
      · exact ih hrest
      · refine List.pairwise_cons.mpr ⟨?_, ih hrest⟩
        intro q hq
        rcases List.mem_cons.mp (mem_of_mem_segments hq).1 with heq | hmem
        · exact heq.ge
        · exact ((List.pairwise_cons.mp hrest).1 _ hmem).le

end

/-! ## The onsets of a buffer -/

section

variable {R : Type} [Scalar R]

/-- All channels of a buffer as one. -/
def SampleBuffer.mono (buffer : SampleBuffer R) : Array R :=
  downmix (buffer.channels.map channelValues)

/-- The consecutive onsets of a buffer that are at least so far apart. -/
def SampleBuffer.beatBounds (buffer : SampleBuffer R) (o : AnalysisOptions R) (least : ℕ) :
    List (ℕ × ℕ) :=
  segments least (onsets buffer.mono buffer.sampleRate o)

variable {buffer : SampleBuffer R} {o : AnalysisOptions R} {least : ℕ}

/-- The downmix has a sample for every frame. -/
lemma size_mono (buffer : SampleBuffer R) : buffer.mono.size = buffer.frameCount := by
  obtain ⟨sampleRate, channels⟩ := buffer
  cases channels with
  | nil => rfl
  | cons first rest =>
    cases rest with
    | nil => exact Array.size_map
    | cons second rest =>
      show (Array.ofFn _).size = first.size
      rw [Array.size_ofFn, channelValues, Array.size_map]

/-- A beat lasts for some frames of the buffer. -/
theorem of_mem_beatBounds {start stop : ℕ} (hleast : 0 < least)
    (h : (start, stop) ∈ buffer.beatBounds o least) :
    start + least ≤ stop ∧ stop ≤ buffer.frameCount := by
  obtain ⟨-, hstop, hlength⟩ := mem_of_mem_segments h
  have hend := le_size_of_mem_onsets _ _ _ hstop
  rw [size_mono] at hend
  dsimp only at hlength hend
  omega

/-- Beats follow one another. -/
theorem pairwise_beatBounds : (buffer.beatBounds o least).Pairwise fun p q => p.2 ≤ q.1 :=
  pairwise_segments (pairwise_onsets _ _ _)

/-- A frame of whole samples is as long as the shortest beat. -/
lemma frameLength?_of_whole [Memory] {windowSize : R} {size : ℕ}
    (hwhole : Scalar.isWhole windowSize = true) (hsize : Scalar.whole windowSize = .int size) :
    frameLength? windowSize = if size ≤ Memory.longest then some ⟨size, size⟩ else none := by
  have hlength : (Whole.int size).toLength? = if size ≤ Memory.longest then some size else none :=
    rfl
  rw [frameLength?, hsize, hlength]
  simp only [hwhole, if_true]
  split_ifs <;> rfl

end

/-! ## The measure of a beat -/

section

variable {R : Type} [Analytic R]

/-- Powers of two have a transform, as long as a signed word counts the lengths of its stages. -/
lemma stageLengths?_two_pow : ∀ k < 30, 1 ≤ k →
    isTransformSize (2 ^ k) = true ∧ (stageLengths? (2 ^ k)).isSome = true := by
  decide +kernel

lemma exists_magnitudeSpectrum {frame : Array R} {k : ℕ} (hsize : frame.size = 2 ^ k) (hk : 1 ≤ k)
    (hk30 : k < 30) : ∃ spectrum, magnitudeSpectrum frame = .ok spectrum := by
  obtain ⟨hpass, hstages⟩ := stageLengths?_two_pow k hk30 hk
  obtain ⟨lengths, hlengths⟩ := Option.isSome_iff_exists.mp hstages
  unfold magnitudeSpectrum
  dsimp only
  rw [hsize, if_pos hpass, hlengths]
  exact ⟨_, rfl⟩

omit [Analytic R] in
/-- The frame of a beat that is long enough is full. -/
lemma size_frame {samples : Array R} {start stop size : ℕ} (hlength : start + size ≤ stop)
    (hstop : stop ≤ samples.size) :
    (samples.extract (frameStart start stop size samples.size)
      (frameStart start stop size samples.size + size)).size = size := by
  rw [Array.size_extract, frameStart]
  omega

variable {samples : Array R} {sampleRate windowSize : R} {size index start stop : ℕ} {beat : Beat R}

/-- A beat that is as long as a window can be measured. -/
theorem exists_measureBeat {k : ℕ} (hk : 1 ≤ k) (hk30 : k < 30) (hlength : start + 2 ^ k ≤ stop)
    (hstop : stop ≤ samples.size) :
    ∃ beat, measureBeat samples sampleRate windowSize (2 ^ k) index start stop = .ok beat := by
  have hsize : (windowed windowSize (samples.extract (frameStart start stop (2 ^ k) samples.size)
      (frameStart start stop (2 ^ k) samples.size + 2 ^ k))).size = 2 ^ k := by
    rw [windowed, Array.size_mapIdx, size_frame hlength hstop]
  obtain ⟨spectrum, hspectrum⟩ := exists_magnitudeSpectrum hsize hk hk30
  unfold measureBeat
  dsimp only
  rw [hspectrum]
  exact ⟨_, rfl⟩

/-- The times of a beat are frame positions divided by the sample rate. -/
theorem of_measureBeat
    (h : measureBeat samples sampleRate windowSize size index start stop = .ok beat) :
    beat.index = Scalar.ofNat index ∧ beat.start = Scalar.ofNat start / sampleRate
      ∧ beat.duration = Scalar.ofNat (stop - start) / sampleRate := by
  unfold measureBeat at h
  obtain ⟨spectrum, -, h⟩ := bind_eq_ok.mp h
  rw [← pure_eq_ok.mp h]
  exact ⟨rfl, rfl, rfl⟩

end

/-! ## The beats of a buffer -/

section

variable {R : Type} [Analytic R] [Memory] {buffer : SampleBuffer R} {o : AnalysisOptions R}

/-- The analyzer measures one beat after another. -/
theorem analyzeBeats_eq (hchannels : buffer.channels ≠ []) :
    analyzeBeats buffer o =
      match frameLength? o.windowSize with
      | none => .error .impossibleWindow
      | some frame => (buffer.beatBounds o frame.least).zipIdx.mapM fun p =>
          (measureBeat buffer.mono buffer.sampleRate o.windowSize frame.size p.2 p.1.1
            p.1.2).mapError .transform := by
  have hsome : ¬buffer.channels.isEmpty = true := by
    rwa [List.isEmpty_iff]
  unfold analyzeBeats
  rw [if_neg hsome]
  cases frameLength? o.windowSize <;> rfl

/-- The beats that are found stand for the onsets, in order. -/
theorem of_analyzeBeats {beats : List (Beat R)} (hchannels : buffer.channels ≠ [])
    {frame : FrameLength} (hframe : frameLength? o.windowSize = some frame)
    (h : analyzeBeats buffer o = .ok beats) :
    List.Forall₂ (fun (p : (ℕ × ℕ) × ℕ) beat => measureBeat buffer.mono buffer.sampleRate
        o.windowSize frame.size p.2 p.1.1 p.1.2 = .ok beat)
      (buffer.beatBounds o frame.least).zipIdx beats := by
  rw [analyzeBeats_eq hchannels, hframe] at h
  refine (mapM_eq_ok.mp h).imp ?_
  intro p beat hp
  exact mapError_eq_ok.mp hp

/-- A buffer with channels is not what is wrong. -/
theorem kind?_of_analyzeBeats_eq_error {fault : AnalysisFault} (hchannels : buffer.channels ≠ [])
    (h : analyzeBeats buffer o = .error fault) : fault.kind? = none := by
  rw [analyzeBeats_eq hchannels] at h
  cases hframe : frameLength? o.windowSize with
  | none =>
    rw [hframe] at h
    rw [← Except.error.inj h]
    rfl
  | some frame =>
    rw [hframe] at h
    obtain ⟨p, -, hp⟩ := exists_of_mapM_eq_error h
    obtain ⟨fault, -, rfl⟩ := mapError_eq_error.mp hp
    rfl

/-- Beats are found with every window that is a power of two below `2 ^ 30`. -/
theorem exists_analyzeBeats {k : ℕ} (hchannels : buffer.channels ≠ []) (hk : 1 ≤ k) (hk30 : k < 30)
    (hframe : frameLength? o.windowSize = some ⟨2 ^ k, 2 ^ k⟩) :
    ∃ beats, analyzeBeats buffer o = .ok beats := by
  rw [analyzeBeats_eq hchannels, hframe]
  apply exists_mapM_eq_ok
  rintro ⟨⟨start, stop⟩, index⟩ hmem
  obtain ⟨hlength, hstop⟩ :=
    of_mem_beatBounds (by positivity) (List.fst_mem_of_mem_zipIdx hmem)
  rw [← size_mono] at hstop
  have hmeasure : ∃ beat, measureBeat buffer.mono buffer.sampleRate o.windowSize (2 ^ k) index start
      stop = .ok beat := exists_measureBeat hk hk30 hlength hstop
  obtain ⟨beat, hbeat⟩ := hmeasure
  exact ⟨beat, mapError_eq_ok.mpr hbeat⟩

end

end EndlessRemix
