import EndlessRemix.Proofs.Analysis.Contract
import EndlessRemix.Proofs.Analysis.Selection

/-!
# What beats depend on

A beat is measured in the middle of its own samples, so nothing outside of them plays a part. Where
beats begin depends on the envelope up to one frame later, since a peak is louder than the frame
after it. So the beats of a buffer that is cut between two frames of the envelope are the first ones
of the whole buffer: what is appended there only adds beats at the end.
-/

namespace EndlessRemix

/-! ## The envelope -/

/-- Samples up to a cut between two frames fill the frames before it. -/
lemma frameTotal_min (n count size : ℕ) :
    frameTotal (min (n * size) count) size = min n (frameTotal count size) := by
  rcases Nat.eq_zero_or_pos size with rfl | hpos
  · rw [frameTotal, frameTotal, Nat.div_zero, Nat.div_zero, Nat.min_zero]
  · have hmono : Monotone fun count => frameTotal count size := by
      intro count count' hle
      exact Nat.div_le_div_right (by omega)
    have hfull : frameTotal (n * size) size = n := by
      have hsplit : n * size + size - 1 = size - 1 + n * size := by omega
      rw [frameTotal, hsplit, Nat.add_mul_div_right _ _ hpos, Nat.div_eq_of_lt (by omega),
        Nat.zero_add]
    rw [hmono.map_min, hfull]

section

variable {R : Type} [Scalar R] (samples : Array R)

/-- Frames before a cut are as loud as without it. -/
lemma frameLoudness_extract (size n : ℕ) :
    frameLoudness (samples.extract 0 (n * size)) size
      = (frameLoudness samples size).extract 0 n := by
  have htotal : frameTotal (samples.extract 0 (n * size)).size size
      = min n (frameTotal samples.size size) := by
    rw [Array.size_extract, Nat.sub_zero, frameTotal_min]
  apply Array.ext
  · rw [size_frameLoudness, htotal, Array.size_extract, size_frameLoudness, Nat.sub_zero]
  · intro i hi hi'
    rw [size_frameLoudness, htotal] at hi
    have hend : i * size + size ≤ n * size := by
      rw [← Nat.succ_mul]
      exact Nat.mul_le_mul_right size (lt_min_iff.mp hi).1
    simp only [frameLoudness, Array.getElem_ofFn, Array.getElem_extract, Array.extract_extract,
      Nat.zero_add, Nat.min_eq_left hend]

/-- Of a frame that has no whole number of samples, only the cut before it is between two frames. -/
lemma exists_envelope_extract (size : Whole) (n : ℕ) :
    ∃ m, envelope (samples.extract 0 (n * size.toNat)) size
      = (envelope samples size).extract 0 m := by
  by_cases hint : ∃ value, size = .int value
  · obtain ⟨value, rfl⟩ := hint
    exact ⟨n, frameLoudness_extract samples value.toNat n⟩
  · refine ⟨0, ?_⟩
    have hzero : size.toNat = 0 := by
      cases size with
      | int value => exact absurd ⟨value, rfl⟩ hint
      | _ => rfl
    have hnone : envelope (#[] : Array R) size = #[] := by
      cases size with
      | int value => exact absurd ⟨value, rfl⟩ hint
      | posInf =>
        apply Array.eq_empty_of_size_eq_zero
        rw [envelope, size_frameLoudness, Array.size_empty, frameTotal, Nat.div_zero]
      | negInf => rfl
      | nan => rfl
    rw [hzero, Nat.mul_zero, Array.extract_zero, Array.extract_zero, hnone]

/-! ## Onsets -/

/-- A frame before a cut is a peak if it was one and the frame after it is still there. -/
lemma isPeak_extract (loudness : Array R) (threshold : R) {m i : ℕ} (hi : i + 1 < m) :
    isPeak (loudness.extract 0 m) threshold i = isPeak loudness threshold i := by
  cases i with
  | zero => rfl
  | succ before =>
    rw [isPeak, isPeak, getElem?_extract_zero _ (by omega), getElem?_extract_zero _ (by omega),
      getElem?_extract_zero _ hi]

/-- The peaks before a cut come first. -/
lemma peaks_extract_isPrefix (loudness : Array R) (threshold : R) (m : ℕ) :
    peaks (loudness.extract 0 m) threshold <+: peaks loudness threshold := by
  have hsize : (loudness.extract 0 m).size = min m loudness.size := by
    rw [Array.size_extract, Nat.sub_zero]
  rw [peaks, peaks, hsize]
  cases hcount : min m loudness.size with
  | zero => exact List.nil_prefix
  | succ count =>
    -- the last frame before the cut has lost the frame after it
    have hlast : isPeak (loudness.extract 0 m) threshold count = false := by
      rw [Bool.eq_false_iff]
      intro hpeak
      have hlt := (bounds_of_isPeak hpeak).2
      omega
    have hsame : (List.range count).filter (isPeak (loudness.extract 0 m) threshold)
        = (List.range count).filter (isPeak loudness threshold) := by
      apply List.filter_congr
      intro i hi
      have hlt := List.mem_range.mp hi
      exact isPeak_extract loudness threshold (by omega)
    have hrange : List.range count <+: List.range loudness.size := by
      rw [← Nat.min_eq_left (by omega : count ≤ loudness.size), ← List.take_range]
      exact List.take_prefix _ _
    rw [List.range_succ, List.filter_append, List.filter_singleton, hlast, hsame]
    simpa using hrange.filter (isPeak loudness threshold)

end

/-- What is taken from the first frames is taken first. -/
lemma takeSpaced_isPrefix (gap : Whole) (last : ℕ) {frames frames' : List ℕ}
    (h : frames <+: frames') : takeSpaced gap last frames <+: takeSpaced gap last frames' := by
  obtain ⟨rest, rfl⟩ := h
  induction frames generalizing last with
  | nil => exact List.nil_prefix
  | cons i frames ih =>
    rw [List.cons_append, takeSpaced, takeSpaced]
    split_ifs
    · exact (List.prefix_cons_inj i).mpr (ih i)
    · exact ih last

section

variable {R : Type} [Scalar R]

/-- The onsets of samples that are cut between two frames are the first ones of all onsets. -/
theorem onsets_extract_isPrefix (samples : Array R) (sampleRate : R) (o : AnalysisOptions R) (n : ℕ) :
    onsets (samples.extract 0 (n * samplesPerFrame sampleRate o)) sampleRate o
      <+: onsets samples sampleRate o := by
  obtain ⟨m, hm⟩ := exists_envelope_extract samples (frameSize sampleRate o) n
  rw [onsets_eq, onsets_eq]
  apply List.IsPrefix.map
  rw [onsetFramesOf, onsetFramesOf, samplesPerFrame, hm]
  exact (List.prefix_cons_inj 0).mpr (takeSpaced_isPrefix _ 0 (peaks_extract_isPrefix _ _ m))

end

/-- The segments of the first onsets come first. -/
lemma segments_isPrefix (least : ℕ) {positions positions' : List ℕ} (h : positions <+: positions') :
    segments least positions <+: segments least positions' := by
  obtain ⟨rest, rfl⟩ := h
  induction positions with
  | nil => exact List.nil_prefix
  | cons start positions ih =>
    cases positions with
    | nil => exact List.nil_prefix
    | cons stop positions =>
      rw [List.cons_append, List.cons_append, segments, segments]
      split_ifs
      · exact ih
      · exact (List.prefix_cons_inj _).mpr ih

/-! ## The cut buffer -/

section

variable {R : Type} [Scalar R]

/-- Before a cut the channels have the same average. -/
lemma mixedFrame_extract (channels : List (Array R)) {count frame : ℕ} (h : frame < count) :
    mixedFrame (channels.map (·.extract 0 count)) frame = mixedFrame channels frame := by
  unfold mixedFrame
  simp only [List.foldl_map, List.length_map, getElem?_extract_zero _ h]

lemma downmix_extract (channels : List (Array R)) (count : ℕ) :
    downmix (channels.map (·.extract 0 count)) = (downmix channels).extract 0 count := by
  match channels with
  | [] => exact Array.extract_empty.symm
  | [channel] => rfl
  | first :: second :: rest =>
    apply Array.ext
    · simp [downmix]
    · intro i hi hi'
      have hlt : i < count := by
        rw [Array.size_extract] at hi'
        omega
      rw [Array.getElem_extract]
      simp only [downmix, List.map_cons, Array.getElem_ofFn, Nat.zero_add]
      exact mixedFrame_extract (first :: second :: rest) hlt

/-- The downmix of the first frames is the first part of the downmix. -/
theorem mono_firstFrames (buffer : SampleBuffer R) (count : ℕ) :
    (buffer.firstFrames count).mono = buffer.mono.extract 0 count := by
  rw [SampleBuffer.mono, SampleBuffer.mono, ← downmix_extract, SampleBuffer.channels_firstFrames,
    List.map_map, List.map_map]
  congr 1
  apply List.map_congr_left
  intro channel _
  exact Array.map_extract

/-- The bounds of the beats before a cut come first. -/
theorem beatBounds_isPrefix (buffer : SampleBuffer R) (o : AnalysisOptions R) (least n : ℕ) :
    (buffer.firstFrames (n * samplesPerFrame buffer.sampleRate o)).beatBounds o least
      <+: buffer.beatBounds o least := by
  unfold SampleBuffer.beatBounds
  rw [mono_firstFrames]
  exact segments_isPrefix least (onsets_extract_isPrefix buffer.mono buffer.sampleRate o n)

end

/-! ## The frame of a beat -/

section

variable {start stop size count : ℕ}

/-- The frame of a beat that is long enough is in the middle of it; the ends of the samples do not
matter. -/
lemma frameStart_eq (hlength : start + size ≤ stop) (hstop : stop ≤ count) :
    frameStart start stop size count = (start + stop) / 2 - size / 2 := by
  rw [frameStart]
  omega

/-- The frame of a beat is inside the beat. -/
lemma frame_inside (hlength : start + size ≤ stop) :
    start ≤ (start + stop) / 2 - size / 2 ∧ (start + stop) / 2 - size / 2 + size ≤ stop := by
  omega

variable {R : Type} [Analytic R] {samples samples' : Array R} {sampleRate windowSize : R}

/-- A beat is measured on its own samples. -/
theorem measureBeat_congr (hlength : start + size ≤ stop) (hstop : stop ≤ samples.size)
    (hstop' : stop ≤ samples'.size) (h : samples'.extract start stop = samples.extract start stop)
    (index : ℕ) :
    measureBeat samples' sampleRate windowSize size index start stop
      = measureBeat samples sampleRate windowSize size index start stop := by
  obtain ⟨hfirst, hlast⟩ := frame_inside hlength
  have hframe : ∀ xs : Array R,
      xs.extract ((start + stop) / 2 - size / 2) ((start + stop) / 2 - size / 2 + size)
        = (xs.extract start stop).extract ((start + stop) / 2 - size / 2 - start)
            ((start + stop) / 2 - size / 2 - start + size) := by
    intro xs
    rw [Array.extract_extract]
    congr 1 <;> omega
  unfold measureBeat
  dsimp only
  rw [frameStart_eq hlength hstop, frameStart_eq hlength hstop', hframe samples', hframe samples, h]

end

/-! ## The beats -/

/-- The first entries are numbered like all of them. -/
lemma zipIdx_isPrefix {α : Type} {xs xs' : List α} (h : xs <+: xs') : xs.zipIdx <+: xs'.zipIdx := by
  obtain ⟨rest, rfl⟩ := h
  rw [List.zipIdx_append]
  exact List.prefix_append _ _

/-- A list of computations that succeeds succeeds on its first entries. -/
lemma mapM_isPrefix {ε α β : Type} {f : α → Except ε β} {xs xs' : List α} {ys : List β}
    (hinit : xs <+: xs') (h : xs'.mapM f = .ok ys) : ∃ first, xs.mapM f = .ok first ∧ first <+: ys := by
  obtain ⟨rest, rfl⟩ := hinit
  rw [List.mapM_append] at h
  obtain ⟨first, hfirst, h⟩ := bind_eq_ok.mp h
  obtain ⟨last, -, h⟩ := bind_eq_ok.mp h
  exact ⟨first, hfirst, last, pure_eq_ok.mp h⟩

/-- A list of computations fails as its first entries do. -/
lemma mapM_error_of_isPrefix {ε α β : Type} {f : α → Except ε β} {xs xs' : List α} {e : ε}
    (hinit : xs <+: xs') (h : xs.mapM f = .error e) : xs'.mapM f = .error e := by
  obtain ⟨rest, rfl⟩ := hinit
  rw [List.mapM_append, h]
  rfl

section

variable {R : Type} [Analytic R] [Memory] {buffer : SampleBuffer R} {o : AnalysisOptions R}

omit [Memory] in
/-- A beat of the first frames is the same beat in the whole buffer. -/
lemma measureBeat_firstFrames {least size count : ℕ} (hpos : 0 < least) (hsize : size ≤ least)
    {p : ℕ × ℕ} (hp : p ∈ (buffer.firstFrames count).beatBounds o least) (index : ℕ) :
    measureBeat (buffer.firstFrames count).mono buffer.sampleRate o.windowSize size index p.1 p.2
      = measureBeat buffer.mono buffer.sampleRate o.windowSize size index p.1 p.2 := by
  obtain ⟨hlength, hstop⟩ := of_mem_beatBounds hpos hp
  rw [← size_mono, mono_firstFrames, Array.size_extract] at hstop
  rw [mono_firstFrames]
  refine measureBeat_congr (by omega) (by omega) ?_ ?_ index
  · rw [Array.size_extract]
    omega
  · rw [Array.extract_extract, Nat.zero_add, Nat.zero_add, Nat.min_eq_left (by omega)]

/-- The analyzer measures the first frames as it does in the whole buffer. -/
lemma analyzeBeats_firstFrames {frame : FrameLength} {count : ℕ} (hchannels : buffer.channels ≠ [])
    (hframe : frameLength? o.windowSize = some frame) (hpos : 0 < frame.least)
    (hsize : frame.size ≤ frame.least) :
    analyzeBeats (buffer.firstFrames count) o
      = ((buffer.firstFrames count).beatBounds o frame.least).zipIdx.mapM fun p =>
          (measureBeat buffer.mono buffer.sampleRate o.windowSize frame.size p.2 p.1.1
            p.1.2).mapError .transform := by
  have hcut : (buffer.firstFrames count).channels ≠ [] := by
    rw [SampleBuffer.channels_firstFrames, ne_eq, List.map_eq_nil_iff]
    exact hchannels
  rw [analyzeBeats_eq hcut, hframe]
  apply mapM_congr
  rw [List.forall₂_same]
  intro p hp
  exact congrArg (Except.mapError AnalysisFault.transform)
    (measureBeat_firstFrames hpos hsize (List.fst_mem_of_mem_zipIdx hp) p.2)

/-- The beats before a cut between two frames of the envelope are the first ones of all beats. -/
theorem analyzeBeats_isPrefix {frame : FrameLength} (hchannels : buffer.channels ≠ [])
    (hframe : frameLength? o.windowSize = some frame) (hpos : 0 < frame.least)
    (hsize : frame.size ≤ frame.least) (n : ℕ) :
    (∀ beats, analyzeBeats buffer o = .ok beats →
      ∃ first, analyzeBeats (buffer.firstFrames (n * samplesPerFrame buffer.sampleRate o)) o
          = .ok first ∧ first <+: beats)
      ∧ ∀ fault, analyzeBeats (buffer.firstFrames (n * samplesPerFrame buffer.sampleRate o)) o
          = .error fault → analyzeBeats buffer o = .error fault := by
  have hinit := zipIdx_isPrefix (beatBounds_isPrefix buffer o frame.least n)
  rw [analyzeBeats_firstFrames hchannels hframe hpos hsize, analyzeBeats_eq hchannels, hframe]
  dsimp only
  constructor
  · intro beats hbeats
    exact mapM_isPrefix hinit hbeats
  · intro fault hfault
    exact mapM_error_of_isPrefix hinit hfault

/-- Beats are only found with a window that the memory has room for. -/
lemma frameLength?_of_analyzeBeats {beats : List (Beat R)} {frame : FrameLength} {p : Prop}
    [Decidable p] (hchannels : buffer.channels ≠ [])
    (hframe : frameLength? o.windowSize = if p then some frame else none)
    (hbeats : analyzeBeats buffer o = .ok beats) : frameLength? o.windowSize = some frame := by
  split_ifs at hframe
  · exact hframe
  · rw [analyzeBeats_eq hchannels, hframe] at hbeats
    cases hbeats

/-- Analysis is local and causal, for every window that is a power of two. The frame of a beat is in
its middle, inside it, and never moved by the ends of the samples, so what is measured depends on
the samples of the beat only; and the beats that are found in a buffer are measured like this. If
the buffer is cut between two frames of the envelope, its beats are the first ones of the beats of
the whole buffer, and it only fails as the whole buffer does. -/
theorem analyzeBeats_local_causal {k : ℕ} (hbuffer : buffer.check = .ok ())
    (hwhole : Scalar.isWhole o.windowSize = true)
    (hwindow : Scalar.whole o.windowSize = .int (2 ^ k : ℕ)) (hk : 1 ≤ k) :
    (∀ start stop, (start, stop) ∈ buffer.beatBounds o (2 ^ k) →
      2 ^ k / 2 ≤ (start + stop) / 2
        ∧ (start + stop) / 2 - 2 ^ k / 2 + 2 ^ k ≤ buffer.mono.size
        ∧ frameStart start stop (2 ^ k) buffer.mono.size = (start + stop) / 2 - 2 ^ k / 2
        ∧ start ≤ frameStart start stop (2 ^ k) buffer.mono.size
        ∧ frameStart start stop (2 ^ k) buffer.mono.size + 2 ^ k ≤ stop
        ∧ ∀ (samples : Array R) (index : ℕ), stop ≤ samples.size →
            samples.extract start stop = buffer.mono.extract start stop →
              measureBeat samples buffer.sampleRate o.windowSize (2 ^ k) index start stop
                = measureBeat buffer.mono buffer.sampleRate o.windowSize (2 ^ k) index start stop)
      ∧ (k < 30 → 2 ^ k ≤ Memory.longest → ∃ beats, analyzeBeats buffer o = .ok beats)
      ∧ (∀ beats, analyzeBeats buffer o = .ok beats →
        List.Forall₂ (fun (p : (ℕ × ℕ) × ℕ) beat => measureBeat buffer.mono buffer.sampleRate
            o.windowSize (2 ^ k) p.2 p.1.1 p.1.2 = .ok beat)
          (buffer.beatBounds o (2 ^ k)).zipIdx beats)
      ∧ ∀ n, (∀ beats, analyzeBeats buffer o = .ok beats →
          ∃ first, analyzeBeats
              (buffer.firstFrames (n * samplesPerFrame buffer.sampleRate o)) o = .ok first
            ∧ first <+: beats)
        ∧ ∀ fault, analyzeBeats
              (buffer.firstFrames (n * samplesPerFrame buffer.sampleRate o)) o = .error fault →
            analyzeBeats buffer o = .error fault := by
  have hchannels : buffer.channels ≠ [] := (check_eq_ok.mp hbuffer).1
  have hpos : 0 < 2 ^ k := by positivity
  have hframe := frameLength?_of_whole hwhole hwindow
  refine ⟨?_, ?_, ?_, ?_⟩
  · intro start stop hmem
    obtain ⟨hlength, hstop⟩ := of_mem_beatBounds hpos hmem
    rw [← size_mono] at hstop
    obtain ⟨hfirst, hlast⟩ := frame_inside hlength
    rw [frameStart_eq hlength hstop]
    refine ⟨by omega, by omega, rfl, hfirst, hlast, ?_⟩
    intro samples index hsamples heq
    exact measureBeat_congr hlength hstop hsamples heq index
  · intro hk30 hroom
    rw [if_pos hroom] at hframe
    exact exists_analyzeBeats hchannels hk hk30 hframe
  · intro beats hbeats
    have hsome := frameLength?_of_analyzeBeats hchannels hframe hbeats
    have hmeasured := of_analyzeBeats hchannels hsome hbeats
    dsimp only at hmeasured
    exact hmeasured
  · intro n
    have hcut : (buffer.firstFrames (n * samplesPerFrame buffer.sampleRate o)).channels ≠ [] := by
      rw [SampleBuffer.channels_firstFrames, ne_eq, List.map_eq_nil_iff]
      exact hchannels
    split_ifs at hframe with hroom
    · exact analyzeBeats_isPrefix hchannels hframe hpos le_rfl n
    · -- no list is as long as the window, before the cut or after it
      rw [analyzeBeats_eq hchannels, analyzeBeats_eq hcut, hframe]
      exact ⟨nofun, fun fault hfault => hfault⟩

end

/-- At four frames of the envelope a second, with windows of two samples. -/
def closeWindows : AnalysisOptions Float := ⟨2, 4, 0.05, 0⟩

/-- The clicks end two beats. If they are cut one frame after the second click begins, the frame
after it is missing, so only the first beat is left. -/
theorem analyzeBeats_local_causal_clicks :
    clicks.check = .ok () ∧ Scalar.whole closeWindows.windowSize = .int (2 ^ 1 : ℕ)
      ∧ samplesPerFrame clicks.sampleRate closeWindows = 2
      ∧ (clicks.firstFrames (5 * 2)).beatBounds closeWindows 2 = [(0, 4)]
      ∧ ∃ first beats, analyzeBeats clicks closeWindows = .ok beats ∧ beats.length = 2
        ∧ analyzeBeats (clicks.firstFrames (5 * 2)) closeWindows = .ok first ∧ first <+: beats := by
  have hbuffer : clicks.check = .ok () := rfl
  have hwhole : Scalar.isWhole closeWindows.windowSize = true := by decide +kernel
  have hwindow : Scalar.whole closeWindows.windowSize = .int (2 ^ 1 : ℕ) := by decide +kernel
  have hframe : samplesPerFrame clicks.sampleRate closeWindows = 2 := by decide +kernel
  obtain ⟨-, hexists, hmeasured, hcut⟩ := analyzeBeats_local_causal hbuffer hwhole hwindow le_rfl
  obtain ⟨beats, hbeats⟩ := hexists (by decide) (by decide)
  obtain ⟨first, hfirst, hinit⟩ := (hcut 5).1 beats hbeats
  rw [hframe] at hfirst
  have hlength : (clicks.beatBounds closeWindows (2 ^ 1)).zipIdx.length = 2 := by decide +kernel
  have hbeatCount := (hmeasured beats hbeats).length_eq
  rw [hlength] at hbeatCount
  exact ⟨hbuffer, hwindow, hframe, by decide +kernel, first, beats, hbeats, hbeatCount.symm, hfirst,
    hinit⟩

end EndlessRemix
