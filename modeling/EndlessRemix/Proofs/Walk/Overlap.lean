import EndlessRemix.Proofs.Beat.Sequence
import EndlessRemix.Proofs.Number.Reals
import EndlessRemix.Proofs.Walk.Track
import EndlessRemix.Remix.Error

/-!
# How spans of a sequence lie

The rules of a sequence compare neighboring beats only, and with a tolerance. In exact arithmetic
they carry over to any two beats, because starts increase. At up to a hundred million frames a
second the tolerance is a tenth of a frame, so two spans share one frame at most: the one in which
an edge was rounded, or the one frame that a beat shorter than a frame is given.
-/

namespace EndlessRemix

/-! ## Spans in any arithmetic -/

section

variable {R : Type} [Scalar R] {beat : Beat R} {rate count : R} {s : Span R}

/-- A beat has no span if it starts at the end of the buffer or later. -/
lemma Beat.exists_fault_iff :
    (∃ fault, beat.span rate count = .error fault) ↔ count ≤ frameTarget beat.start rate := by
  unfold Beat.span
  dsimp only
  split_ifs with h
  · exact iff_of_true ⟨_, rfl⟩ h
  · exact iff_of_false nofun h

/-- The edges of a span. -/
lemma Beat.span_eq_ok : beat.span rate count = .ok s
    ↔ ¬count ≤ frameTarget beat.start rate
      ∧ s = ⟨frameTarget beat.start rate, min (max (frameTarget beat.start rate + 1)
          (frameTarget (beat.start + beat.duration) rate)) count⟩ := by
  unfold Beat.span
  dsimp only
  split_ifs with h
  · exact iff_of_false nofun fun h' => h'.1 h
  · rw [Except.ok.injEq, eq_comm]
    exact (and_iff_right h).symm

end

/-! ## Exact times -/

namespace Exact

variable {a b : Beat Exact} {x y rate count : Exact}

lemma start_nonneg_of_timely (h : a.Timely) : 0 ≤ a.start.real := by
  have hzero : (0 : Exact).real = 0 := Nat.cast_zero
  rw [← hzero]
  exact h.start_nonneg

lemma start_lt_of_precedes (h : a.Precedes b) : a.start.real < b.start.real :=
  not_le.mp h.start

lemma stop_le_of_precedes (h : a.Precedes b) :
    a.start.real + a.duration.real ≤ b.start.real + 1e-9 :=
  not_lt.mp h.overlap

/-- In exact arithmetic the rules for two neighbors carry over to beats further apart. -/
instance : Trans (Beat.Precedes (R := Exact)) Beat.Precedes Beat.Precedes where
  trans {a b c} hab hbc := by
    have hab' := start_lt_of_precedes hab
    have hbc' := start_lt_of_precedes hbc
    have hstop := stop_le_of_precedes hab
    constructor
    · show ¬c.start.real ≤ a.start.real
      linarith
    · show ¬c.start.real + 1e-9 < a.start.real + a.duration.real
      linarith

/-- A later time is in the same frame or in a later one. -/
lemma frameTarget_mono (hrate : 0 ≤ rate.real) (h : x.real ≤ y.real) :
    (frameTarget x rate).real ≤ (frameTarget y rate).real := by
  have hscaled : x.real * rate.real ≤ y.real * rate.real := mul_le_mul_of_nonneg_right h hrate
  show ((round (x.real * rate.real) : ℤ) : ℝ) ≤ (round (y.real * rate.real) : ℤ)
  rw [round_eq, round_eq]
  exact_mod_cast Int.floor_le_floor (by linarith)

/-- A time that is later by the tolerance at most is in the next frame at most. -/
lemma frameTarget_le_add_one (hrate : 0 ≤ rate.real) (hhigh : rate.real ≤ 10 ^ 8)
    (h : x.real ≤ y.real + 1e-9) :
    (frameTarget x rate).real ≤ (frameTarget y rate).real + 1 := by
  have hscaled : x.real * rate.real ≤ y.real * rate.real + 1 := by
    calc x.real * rate.real ≤ (y.real + 1e-9) * rate.real := by gcongr
      _ = y.real * rate.real + 1e-9 * rate.real := by ring
      _ ≤ y.real * rate.real + 1e-9 * 10 ^ 8 := by gcongr
      _ ≤ y.real * rate.real + 1 := by norm_num
  show ((round (x.real * rate.real) : ℤ) : ℝ) ≤ (round (y.real * rate.real) : ℤ) + 1
  rw [round_eq, round_eq]
  have hfloor : ⌊x.real * rate.real + 1 / 2⌋ ≤ ⌊y.real * rate.real + 1 / 2⌋ + 1 := by
    rw [← Int.floor_add_one]
    exact Int.floor_le_floor (by linarith)
  exact_mod_cast hfloor

/-! ## One span -/

/-- The edges of a span, as real numbers. -/
lemma real_of_span {beat : Beat Exact} {s : Span Exact} (h : beat.span rate count = .ok s) :
    s.start.real = (frameTarget beat.start rate).real
      ∧ s.stop.real = min (max (s.start.real + 1)
          (frameTarget (beat.start + beat.duration) rate).real) count.real
      ∧ s.start.real < count.real := by
  obtain ⟨hcount, rfl⟩ := Beat.span_eq_ok.mp h
  refine ⟨rfl, ?_, not_le.mp hcount⟩
  show min (max ((frameTarget beat.start rate).real + ((1 : ℕ) : ℝ)) _) _ = _
  rw [Nat.cast_one]

/-- The span of a beat that does not start below zero is inside the buffer. -/
lemma inside_of_span {beat : Beat Exact} {s : Span Exact} (hbeat : 0 ≤ beat.start.real)
    (hrate : 0 ≤ rate.real) (h : beat.span rate count = .ok s) :
    0 ≤ s.start.real ∧ s.start.real < s.stop.real ∧ s.stop.real ≤ count.real := by
  obtain ⟨hstart, hstop, hcount⟩ := real_of_span h
  refine ⟨?_, ?_, ?_⟩
  · have hzero : (frameTarget ⟨0⟩ rate).real = 0 := by
      show ((round ((0 : ℝ) * rate.real) : ℤ) : ℝ) = 0
      rw [zero_mul, round_zero, Int.cast_zero]
    rw [hstart, ← hzero]
    exact frameTarget_mono hrate hbeat
  · rw [hstop]
    exact lt_min (lt_max_of_lt_left (lt_add_one _)) hcount
  · rw [hstop]
    exact min_le_right _ _

/-! ## Two spans -/

/-- How the spans of a beat and of a later one lie: the later one does not start before the other,
has no span if the other has none, and shares one frame with it at most. -/
structure SpansInOrder (rate count : Exact) (a b : Beat Exact) : Prop where
  start_le : (frameTarget a.start rate).real ≤ (frameTarget b.start rate).real
  refused : (∃ fault, a.span rate count = .error fault) → ∃ fault, b.span rate count = .error fault
  shared : ∀ s t, a.span rate count = .ok s → b.span rate count = .ok t →
    s.start.real ≤ t.start.real ∧ s.stop.real ≤ t.start.real + 1

lemma spansInOrder (hrate : 0 ≤ rate.real) (hhigh : rate.real ≤ 10 ^ 8) (h : a.Precedes b) :
    SpansInOrder rate count a b := by
  have hstart := frameTarget_mono hrate (start_lt_of_precedes h).le
  constructor
  · exact hstart
  · rw [Beat.exists_fault_iff, Beat.exists_fault_iff]
    intro hcount
    have hcount' : count.real ≤ (frameTarget a.start rate).real := hcount
    exact hcount'.trans hstart
  · intro s t hs ht
    obtain ⟨hs, hstop, -⟩ := real_of_span hs
    obtain ⟨ht, -, -⟩ := real_of_span ht
    rw [← hs, ← ht] at hstart
    have hedge : (frameTarget (a.start + a.duration) rate).real ≤ t.start.real + 1 := by
      rw [ht]
      exact frameTarget_le_add_one hrate hhigh (stop_le_of_precedes h)
    refine ⟨hstart, ?_⟩
    rw [hstop]
    exact min_le_of_left_le (max_le (by linarith) hedge)

/-- Over an accepted sequence, the spans of any two beats are in order. -/
lemma pairwise_spansInOrder {beats : List (Beat Exact)} (h : checkBeats beats = .ok ())
    (hrate : 0 ≤ rate.real) (hhigh : rate.real ≤ 10 ^ 8) :
    beats.Pairwise (SpansInOrder rate count) :=
  (isChain_of_checkBeats h).pairwise.imp (spansInOrder hrate hhigh)

/-- If a beat has no span, neither has the last one. -/
lemma refused_last {beats : List (Beat Exact)} {beat last : Beat Exact}
    (h : beats.Pairwise (SpansInOrder rate count)) (hmem : beat ∈ beats)
    (hlast : beats.getLast? = some last) (hrefused : ∃ fault, beat.span rate count = .error fault) :
    ∃ fault, last.span rate count = .error fault := by
  obtain ⟨front, rfl⟩ := List.getLast?_eq_some_iff.mp hlast
  rcases List.mem_append.mp hmem with hfront | hend
  · have hpair := (List.pairwise_append.mp h).2.2 beat hfront last (List.mem_singleton_self last)
    exact hpair.refused hrefused
  · rw [List.mem_singleton.mp hend] at hrefused
    exact hrefused

/-- A sequence has all its spans if its last beat starts inside the buffer. -/
lemma spansOf_error_iff {buffer : SampleBuffer Exact} {beats : List (Beat Exact)}
    {last : Beat Exact}
    (h : beats.Pairwise (SpansInOrder buffer.sampleRate (Scalar.ofNat buffer.frameCount)))
    (hlast : beats.getLast? = some last) :
    (∃ fault, spansOf buffer beats = .error fault)
      ↔ (buffer.frameCount : ℝ) ≤ (frameTarget last.start buffer.sampleRate).real := by
  have hrefused : (∃ fault, last.span buffer.sampleRate (Scalar.ofNat buffer.frameCount)
        = .error fault)
      ↔ (buffer.frameCount : ℝ) ≤ (frameTarget last.start buffer.sampleRate).real :=
    Beat.exists_fault_iff
  rw [← hrefused]
  constructor
  · rintro ⟨fault, hspans⟩
    obtain ⟨beat, hmem, hbeat⟩ := exists_of_mapM_eq_error hspans
    exact refused_last h hmem hlast ⟨fault, hbeat⟩
  · rintro ⟨fault, hfault⟩
    cases hspans : spansOf buffer beats with
    | error fault => exact ⟨fault, rfl⟩
    | ok spans =>
      obtain ⟨span, hspan⟩ := exists_of_mapM_eq_ok hspans (List.mem_of_getLast? hlast)
      rw [hfault] at hspan
      cases hspan

end Exact

/-! ## The spans of a sequence -/

section

variable {beats : List (Beat Exact)} {rate : Exact}

open Exact in
/-- The spans of an accepted sequence, at up to a hundred million frames a second and in a buffer of
any length. A beat starts at its end or later and has no span, which is a fault of the input, or its
span is inside it; of any two beats the spans are in order. So a track is refused for a beat that
starts too late exactly if the last one does. -/
theorem checkBeats_spans [Memory] (hbeats : checkBeats beats = .ok ()) (hrate : 0 < rate.real)
    (hhigh : rate.real ≤ 10 ^ 8) :
    (∀ count : Exact,
      (∀ beat ∈ beats, match beat.span rate count with
        | .error fault => count.real ≤ (frameTarget beat.start rate).real
            ∧ (RemixError.track (.span fault)).kind? = some .input
        | .ok s => 0 ≤ s.start.real ∧ s.start.real < s.stop.real ∧ s.stop.real ≤ count.real)
      ∧ beats.Pairwise (SpansInOrder rate count))
    ∧ ∀ {σ : Type} (buffer : SampleBuffer Exact) (t : TrackOptions Exact) (draws : Draws Exact σ)
        (source : σ) (last : Beat Exact), buffer.sampleRate = rate → buffer.check = .ok () →
        0 < t.targetDurationSeconds → 0 ≤ t.branchProbability → t.branchProbability ≤ 1 →
        beats.getLast? = some last →
        ((∃ fault, generateTrack buffer beats t draws source = .error (.span fault))
          ↔ (buffer.frameCount : ℝ) ≤ (frameTarget last.start rate).real) := by
  constructor
  · intro count
    refine ⟨?_, pairwise_spansInOrder hbeats hrate.le hhigh⟩
    intro beat hmem
    cases hspan : beat.span rate count with
    | error fault => exact ⟨Beat.exists_fault_iff.mp ⟨fault, hspan⟩, rfl⟩
    | ok s =>
      exact inside_of_span (start_nonneg_of_timely (timely_of_checkBeats hbeats beat hmem))
        hrate.le hspan
  · rintro σ buffer t draws source last rfl hbuffer hduration hlow hhigh' hlast
    have hspans := spansOf_error_iff (pairwise_spansInOrder hbeats hrate.le hhigh) hlast
    rw [← hspans]
    have hne : beats ≠ [] := by
      rintro rfl
      cases hlast
    constructor
    · rintro ⟨fault, hfault⟩
      cases course_of_generateTrack hfault with
      | span hspans => exact ⟨fault, hspans⟩
    · rintro ⟨fault, hfault⟩
      exact ⟨fault, generateTrack_of_spansOf ⟨hduration, rfl, hlow, hhigh'⟩ hne hbuffer hfault⟩

end

/-- A beat of a quarter of a frame, at two frames a second. -/
noncomputable def quarter (index : ℕ) (start : ℝ) : Beat Exact :=
  ⟨⟨index⟩, ⟨start⟩, ⟨1 / 8⟩, [], [], ⟨0⟩, ⟨0⟩, ⟨1⟩, #[]⟩

/-- Two such beats, the first from the middle of a frame on. -/
noncomputable def quarters : List (Beat Exact) := [quarter 0 (1 / 4), quarter 1 (3 / 8)]

lemma check_quarter (index : ℕ) {start : ℝ} (hstart : 0 ≤ start) :
    (quarter index start).check index = .ok () := by
  refine Beat.check_eq_ok.mpr ⟨?_, ?_⟩
  · rw [Scalar.same, Bool.and_eq_true, decide_eq_true_eq, decide_eq_true_eq]
    exact ⟨le_refl (index : ℝ), le_refl (index : ℝ)⟩
  · have hduration : ((0 : ℕ) : ℝ) < 1 / 8 := by norm_num
    have hzero : ((0 : ℕ) : ℝ) ≤ start := by rwa [Nat.cast_zero]
    exact ⟨hduration, rfl, hzero, rfl⟩

lemma checkBeats_quarters : checkBeats quarters = .ok () := by
  have hnext : (quarter 0 (1 / 4)).Precedes (quarter 1 (3 / 8)) := by
    constructor
    · show ¬(3 / 8 : ℝ) ≤ 1 / 4
      norm_num
    · show ¬(3 / 8 + 1e-9 : ℝ) < 1 / 4 + 1 / 8
      norm_num
  rw [quarters, checkBeats, check_quarter 0 (by norm_num), ok_bind, checkBeatsAfter,
    check_quarter 1 (by norm_num), ok_bind, (Beat.checkNext_eq_ok 1).mpr hnext, ok_bind,
    checkBeatsAfter]

/-- Times from the middle of frame 0 on are rounded to frame 1, up to the middle of that. -/
lemma frameTarget_quarter {x : Exact} (hlow : 1 / 4 ≤ x.real) (hhigh : x.real < 3 / 4) :
    frameTarget x ⟨2⟩ = ⟨1⟩ := by
  have hround : round (x.real * 2) = 1 := by
    rw [round_eq_iff]
    constructor <;> norm_num <;> linarith
  show (⟨((round (x.real * 2) : ℤ) : ℝ)⟩ : Exact) = ⟨1⟩
  rw [hround, Int.cast_one]

/-- A quarter that is rounded to frame 1 is given all of that frame. -/
lemma span_quarter {index : ℕ} {start : ℝ} (hlow : 1 / 4 ≤ start) (hhigh : start ≤ 1 / 2) :
    (quarter index start).span ⟨2⟩ ⟨4⟩ = .ok ⟨⟨1⟩, ⟨2⟩⟩ := by
  have hfirst : frameTarget (quarter index start).start ⟨2⟩ = ⟨1⟩ :=
    frameTarget_quarter hlow (show start < 3 / 4 by linarith)
  have hlast : frameTarget ((quarter index start).start + (quarter index start).duration) ⟨2⟩
      = ⟨1⟩ :=
    frameTarget_quarter (show 1 / 4 ≤ start + 1 / 8 by linarith)
      (show start + 1 / 8 < 3 / 4 by linarith)
  refine Beat.span_eq_ok.mpr ⟨?_, ?_⟩
  · rw [hfirst]
    show ¬(4 : ℝ) ≤ 1
    norm_num
  · rw [hfirst, hlast]
    have hedge : min (max ((1 : ℝ) + ((1 : ℕ) : ℝ)) 1) 4 = 2 := by norm_num
    exact congrArg (fun x : ℝ => (⟨⟨1⟩, ⟨x⟩⟩ : Span Exact)) hedge.symm

/-- The quarters share a frame: the first starts in the middle of the frame before it and is rounded
up, the second is rounded to it, and both are given all of it. -/
theorem checkBeats_spans_quarters :
    checkBeats quarters = .ok ()
      ∧ quarters.map (fun beat => beat.span ⟨2⟩ ⟨4⟩) = [.ok ⟨⟨1⟩, ⟨2⟩⟩, .ok ⟨⟨1⟩, ⟨2⟩⟩]
      ∧ quarters.Pairwise (Exact.SpansInOrder ⟨2⟩ ⟨4⟩)
      ∧ ¬∃ fault, generateTrack ⟨⟨2⟩, fourFrames.channels⟩ quarters ⟨⟨1⟩, ⟨0⟩⟩
          ⟨fun n : ℕ => (⟨0⟩, n + 1), 1⟩ 0 = .error (.span fault) := by
  obtain ⟨hspans, htrack⟩ := @checkBeats_spans quarters ⟨2⟩ _ checkBeats_quarters
    (show (0 : ℝ) < 2 by norm_num) (show (2 : ℝ) ≤ 10 ^ 8 by norm_num)
  have hfirst := @span_quarter 0 (1 / 4) le_rfl (by norm_num)
  have hnext := @span_quarter 1 (3 / 8) (by norm_num) (by norm_num)
  refine ⟨checkBeats_quarters, ?_, (hspans ⟨4⟩).2, ?_⟩
  · rw [quarters, List.map_cons, List.map_cons, List.map_nil, hfirst, hnext]
  · rw [htrack _ _ _ _ (quarter 1 (3 / 8)) rfl rfl (show ((0 : ℕ) : ℝ) < 1 by norm_num)
      (show ((0 : ℕ) : ℝ) ≤ 0 by norm_num) (show (0 : ℝ) ≤ ((1 : ℕ) : ℝ) by norm_num) rfl]
    have hstart := (Beat.span_eq_ok.mp hnext).1
    exact hstart

end EndlessRemix
