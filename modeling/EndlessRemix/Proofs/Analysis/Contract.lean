import EndlessRemix.Proofs.Analysis.Times
import EndlessRemix.Proofs.Number.Reals
import EndlessRemix.Proofs.Remix.Course
import EndlessRemix.Proofs.Walk.Track

/-!
# What the analyzer promises

The beats that the analyzer finds are beats that the graph and the walk accept, and the frames that
a walk copies for a beat are those between the two onsets that the beat was built from. So no remix
of analyzed beats ever complains about its input.
-/

namespace EndlessRemix

open RoundedArithmetic

section

variable {R : Type} [Analytic R] [RoundedArithmetic R] [Memory] {buffer : SampleBuffer R}
  {o : AnalysisOptions R} {beats : List (Beat R)} {rate k : ℕ}

omit [Memory] in
/-- A buffer that lasts a million seconds at most, and a window that is a power of two. -/
structure Analyzable (buffer : SampleBuffer R) (o : AnalysisOptions R) (rate k : ℕ) : Prop where
  timed : Timed buffer.sampleRate rate buffer.frameCount
  check : buffer.check = .ok ()
  isWhole : Scalar.isWhole o.windowSize = true
  window : Scalar.whole o.windowSize = .int (2 ^ k : ℕ)
  one_le : 1 ≤ k

namespace Analyzable

omit [Memory] in
lemma channels_ne_nil (h : Analyzable buffer o rate k) : buffer.channels ≠ [] :=
  (check_eq_ok.mp h.check).1

/-- There are windows of the size, if the memory has room for them. -/
lemma frameLength?_eq (h : Analyzable buffer o rate k) :
    frameLength? o.windowSize
      = if 2 ^ k ≤ Memory.longest then some ⟨2 ^ k, 2 ^ k⟩ else none :=
  frameLength?_of_whole h.isWhole h.window

/-- A window of a power of two below `2 ^ 30` gives beats, if the memory has room for it. -/
theorem exists_beats (h : Analyzable buffer o rate k) (hk : k < 30)
    (hroom : 2 ^ k ≤ Memory.longest) : ∃ beats, analyzeBeats buffer o = .ok beats := by
  refine exists_analyzeBeats h.channels_ne_nil h.one_le hk ?_
  rw [h.frameLength?_eq, if_pos hroom]

/-- The beats that are found are measured between the onsets, in order. -/
theorem measured (h : Analyzable buffer o rate k) (hbeats : analyzeBeats buffer o = .ok beats) :
    List.Forall₂ (fun (p : (ℕ × ℕ) × ℕ) beat => measureBeat buffer.mono buffer.sampleRate
        o.windowSize (2 ^ k) p.2 p.1.1 p.1.2 = .ok beat)
      (buffer.beatBounds o (2 ^ k)).zipIdx beats := by
  by_cases hroom : 2 ^ k ≤ Memory.longest
  · have hframe := h.frameLength?_eq
    rw [if_pos hroom] at hframe
    have hmeasured := of_analyzeBeats h.channels_ne_nil hframe hbeats
    exact hmeasured
  · have hframe := h.frameLength?_eq
    rw [if_neg hroom] at hframe
    rw [analyzeBeats_eq h.channels_ne_nil, hframe] at hbeats
    cases hbeats

/-- There is a beat for each pair of bounds. -/
lemma length_eq (h : Analyzable buffer o rate k) (hbeats : analyzeBeats buffer o = .ok beats) :
    beats.length = (buffer.beatBounds o (2 ^ k)).length := by
  rw [← (h.measured hbeats).length_eq, List.length_zipIdx]

omit [Memory] in
/-- A beat lasts for two frames of the buffer at least. -/
lemma bounds (h : Analyzable buffer o rate k) {p : ℕ × ℕ} (hp : p ∈ buffer.beatBounds o (2 ^ k)) :
    p.1 + 2 ≤ p.2 ∧ p.2 ≤ buffer.frameCount := by
  have htwo : 2 ^ 1 ≤ 2 ^ k := Nat.pow_le_pow_right (by norm_num) h.one_le
  obtain ⟨hlength, hstop⟩ := of_mem_beatBounds (by positivity) hp
  omega

/-- Every beat that is found has the times of its onsets, and their frames. -/
theorem exists_span (h : Analyzable buffer o rate k) (hbeats : analyzeBeats buffer o = .ok beats)
    {i start stop : ℕ} (hi : (buffer.beatBounds o (2 ^ k))[i]? = some (start, stop)) :
    ∃ beat span, beats[i]? = some beat
      ∧ measureBeat buffer.mono buffer.sampleRate o.windowSize (2 ^ k) i start stop = .ok beat
      ∧ beat.span buffer.sampleRate (Scalar.ofNat buffer.frameCount) = .ok span
      ∧ real? span.start = some (start : ℝ) ∧ real? span.stop = some (stop : ℝ) := by
  obtain ⟨hlength, hall⟩ := List.forall₂_iff_get.mp (h.measured hbeats)
  obtain ⟨hlt, heq⟩ := List.getElem?_eq_some_iff.mp hi
  have hi1 : i < (buffer.beatBounds o (2 ^ k)).zipIdx.length := by
    rwa [List.length_zipIdx]
  have hi2 : i < beats.length := hlength ▸ hi1
  have hmeasure := hall i hi1 hi2
  simp only [List.get_eq_getElem, List.getElem_zipIdx, heq, Nat.zero_add] at hmeasure
  obtain ⟨hindex, hstart, hduration⟩ := of_measureBeat hmeasure
  obtain ⟨hle, hstop⟩ := h.bounds (List.mem_of_getElem? hi)
  obtain ⟨span, hspan, hfirst, hlast⟩ :=
    Beat.Derived.span_eq ⟨hindex, hstart, hduration⟩ h.timed hle hstop
  exact ⟨beats[i], span, List.getElem?_eq_getElem hi2, hmeasure, hspan, hfirst, hlast⟩

/-- The beats that are found obey the rules. -/
theorem checkBeats_eq (h : Analyzable buffer o rate k)
    (hbeats : analyzeBeats buffer o = .ok beats) : checkBeats beats = .ok () := by
  refine checkBeats_of_derived h.timed ?_ pairwise_beatBounds ((h.measured hbeats).imp ?_)
  · intro p hp
    obtain ⟨hle, hstop⟩ := h.bounds hp
    exact ⟨by omega, hstop⟩
  · intro p beat hmeasure
    obtain ⟨hindex, hstart, hduration⟩ := of_measureBeat hmeasure
    exact ⟨hindex, hstart, hduration⟩

/-- The beats that are found have frames in the buffer, all of them. -/
lemma exists_spans (h : Analyzable buffer o rate k) (hbeats : analyzeBeats buffer o = .ok beats) :
    ∃ spans, spansOf buffer beats = .ok spans := by
  apply exists_mapM_eq_ok
  intro beat hmem
  obtain ⟨i, hi⟩ := List.mem_iff_getElem?.mp hmem
  have hlt : i < (buffer.beatBounds o (2 ^ k)).length := by
    rw [← h.length_eq hbeats]
    exact (List.getElem?_eq_some_iff.mp hi).1
  obtain ⟨beat', span, hi', -, hspan, -⟩ :=
    h.exists_span hbeats (List.getElem?_eq_getElem hlt)
  obtain rfl : beat = beat' := Option.some.inj (hi.symm.trans hi')
  exact ⟨span, hspan⟩

/-- So have the beats that they become when they are connected. -/
lemma exists_spans_of_connect {graph : GraphOptions R} {c : Connection R}
    (h : Analyzable buffer o rate k) (hbeats : analyzeBeats buffer o = .ok beats)
    (hconnect : connect graph beats = .ok c) : ∃ spans, spansOf buffer c.beats = .ok spans := by
  rw [(sameBeats_of_connect hconnect).spansOf_eq]
  exact h.exists_spans hbeats

omit [Memory] in
/-- The rate of such a buffer is one. -/
lemma checkSource_eq (h : Analyzable buffer o rate k) : checkSource buffer = .ok () := by
  refine checkSource_eq_ok.mpr ⟨(isFinite_iff _).mpr ⟨_, h.timed.real_eq⟩, ?_, h.check⟩
  rw [le_iff h.timed.real_eq real?_zero, not_le]
  exact h.timed.cast_pos

end Analyzable

/-- A remix of analyzed beats never fails because of its input. -/
lemma Analyzable.kind?_ne_input {o : RemixOptions R} {e : RemixError R}
    (h : Analyzable buffer o.analysis rate k)
    (hrun : (remixWith .analyzer buffer o).outcome = .error e) : e.kind? ≠ some .input := by
  obtain ⟨events, -, hcourse⟩ := exists_course hrun
  cases hcourse with
  | notExtracted hextract =>
    obtain ⟨fault, hfault, rfl⟩ := mapError_eq_error.mp hextract
    intro hkind
    have hnone := kind?_of_analyzeBeats_eq_error h.channels_ne_nil hfault
    rw [RemixError.kind?, hnone] at hkind
    cases hkind
  | noBeats hnone => exact nofun
  | notConnected hbeats hne hfault =>
    rcases of_connect_eq_error hfault with ⟨hempty, -⟩ | ⟨rule, hrule, -⟩
    · exact absurd hempty hne
    · rw [h.checkBeats_eq (mapError_eq_ok.mp hbeats)] at hrule
      cases hrule
  | rejected => exact nofun
  | noTrack hbeats hne hconnect haccept htrack =>
    obtain ⟨fault, hfault, rfl⟩ := mapError_eq_error.mp htrack
    cases course_of_generateTrack hfault with
    | buffer hbuffer =>
      rw [h.check] at hbuffer
      cases hbuffer
    | span hspan =>
      obtain ⟨spans, hspans⟩ := h.exists_spans_of_connect (mapError_eq_ok.mp hbeats) hconnect
      rw [hspans] at hspan
      cases hspan
    | _ => exact nofun

end

/-- The analyzer meets the contract of the graph and of the walk, in exact arithmetic (`Exact`), in
doubles (`Float`), and in every arithmetic whose sums, products and quotients have an error of
`2 ^ -53` at most. A buffer with good channels, a whole sample rate and at most a million seconds is
analyzed with options that were accepted and a window that is a power of two. Then beats are found
unless the window is out of the range of the transform or of the memory, which is no fault of the
input. They obey
the rules, they are as many as the onsets give, and each of them covers exactly the frames between
its two onsets. So a remix of them never fails because of its input. -/
theorem analyzeBeats_contract {R : Type} [Analytic R] [RoundedArithmetic R] [Memory]
    {buffer : SampleBuffer R} {settings : RemixSettings R} {drawn : R} {o : RemixOptions R}
    {rate k : ℕ}
    (hbuffer : buffer.check = .ok ()) (hframes : buffer.frameCount ≤ 2 ^ 40)
    (hrate : real? buffer.sampleRate = some (rate : ℝ)) (hpos : 1 ≤ rate) (hlt : rate < 2 ^ 32)
    (hseconds : buffer.frameCount ≤ 10 ^ 6 * rate) (hsettings : settings.resolve drawn = .ok o)
    (hwindow : Scalar.whole o.analysis.windowSize = .int (2 ^ k : ℕ)) (hk : 1 ≤ k) :
    (k < 30 → 2 ^ k ≤ Memory.longest → ∃ beats, analyzeBeats buffer o.analysis = .ok beats)
      ∧ (∀ fault, analyzeBeats buffer o.analysis = .error fault → fault.kind? = none)
      ∧ (∀ beats, analyzeBeats buffer o.analysis = .ok beats →
        checkBeats beats = .ok ()
          ∧ beats.length = (buffer.beatBounds o.analysis (2 ^ k)).length
          ∧ ∀ i start stop : ℕ, (buffer.beatBounds o.analysis (2 ^ k))[i]? = some (start, stop) →
            start < stop ∧ stop ≤ buffer.frameCount
              ∧ ∃ beat span, beats[i]? = some beat
                ∧ measureBeat buffer.mono buffer.sampleRate o.analysis.windowSize (2 ^ k) i start stop
                  = .ok beat
                ∧ beat.span buffer.sampleRate (Scalar.ofNat buffer.frameCount) = .ok span
                ∧ real? span.start = some (start : ℝ) ∧ real? span.stop = some (stop : ℝ))
      ∧ ∀ e, (makeRemix .analyzer drawn buffer settings).outcome = .error e →
        e.kind? ≠ some .input := by
  have hgives := RemixSettings.resolve_eq_ok.mp hsettings
  have h : Analyzable buffer o.analysis rate k :=
    { timed := ⟨hrate, hpos, hlt, hframes, hseconds⟩
      check := hbuffer
      isWhole := (Setting.windowSize_eq_ok.mp hgives.analysis.windowSize).2.1
      window := hwindow
      one_le := hk }
  refine ⟨h.exists_beats, ?_, ?_, ?_⟩
  · intro fault hfault
    exact kind?_of_analyzeBeats_eq_error h.channels_ne_nil hfault
  · intro beats hbeats
    refine ⟨h.checkBeats_eq hbeats, ?_, ?_⟩
    · rw [← (h.measured hbeats).length_eq, List.length_zipIdx]
    · intro i start stop hi
      obtain ⟨hle, hstop⟩ := h.bounds (List.mem_of_getElem? hi)
      dsimp only at hle hstop
      exact ⟨by omega, hstop, h.exists_span hbeats hi⟩
  · intro e hrun
    rcases makeRemix_cases .analyzer drawn buffer settings with
      ⟨fault, hfault, -⟩ | ⟨o', e', -, hsource, -⟩ | ⟨o', ho', -, hmake⟩
    · rw [hsettings] at hfault
      cases hfault
    · rw [h.checkSource_eq] at hsource
      cases hsource
    · obtain rfl : o' = o := Except.ok.inj (ho'.symm.trans hsettings)
      rw [hmake] at hrun
      exact h.kind?_ne_input hrun

/-- Twelve frames at eight frames a second, silent but for two of them. -/
def clicks : SampleBuffer Float :=
  ⟨Scalar.ofNat 8, [#[⟨0⟩, ⟨0⟩, ⟨0⟩, ⟨0⟩, ⟨0x3F000000⟩, ⟨0⟩, ⟨0⟩, ⟨0⟩, ⟨0x3F000000⟩, ⟨0⟩, ⟨0⟩, ⟨0⟩]]⟩

/-- Windows of two samples, and onsets as close together as they can be. -/
def closely : RemixSettings Float :=
  { analysis :=
    { windowSize := Setting.ofNumber 2
      envelopeRate := Setting.ofNumber 4
      minBeatInterval := Setting.ofNumber 0 } }

/-- The clicks end two beats of four frames, which doubles find again. -/
theorem analyzeBeats_contract_clicks :
    ∃ o beats, closely.resolve 0.25 = .ok o ∧ analyzeBeats clicks o.analysis = .ok beats
      ∧ checkBeats beats = .ok () ∧ beats.length = 2
      ∧ ∃ beat span, beats[1]? = some beat
          ∧ beat.span clicks.sampleRate (Scalar.ofNat 12) = .ok span
          ∧ real? span.start = some ((4 : ℕ) : ℝ) ∧ real? span.stop = some ((8 : ℕ) : ℝ) := by
  have hrun : (match closely.resolve 0.25 with
      | .ok o => decide (Scalar.whole o.analysis.windowSize = .int (2 ^ 1 : ℕ)
          ∧ clicks.beatBounds o.analysis (2 ^ 1) = [(0, 4), (4, 8)])
      | .error _ => false) = true := by decide +kernel
  have hrate : real? clicks.sampleRate = some ((8 : ℕ) : ℝ) := real?_ofNat (by norm_num)
  have hbuffer : clicks.check = .ok () := rfl
  split at hrun
  · rename_i o ho
    obtain ⟨hwindow, hbounds⟩ := of_decide_eq_true hrun
    obtain ⟨hexists, -, hbeats, -⟩ := analyzeBeats_contract hbuffer (by decide) hrate (by decide)
      (by decide) (by decide) ho hwindow le_rfl
    obtain ⟨beats, hok⟩ := hexists (by decide) (by decide)
    obtain ⟨hcheck, hlength, hspans⟩ := hbeats beats hok
    rw [hbounds] at hlength hspans
    obtain ⟨-, -, beat, span, hbeat, -, hspan, hstart, hstop⟩ := hspans 1 4 8 rfl
    exact ⟨o, beats, ho, hok, hcheck, hlength, beat, span, hbeat, hspan, hstart, hstop⟩
  · cases hrun

end EndlessRemix
