import EndlessRemix.Proofs.Analysis.Click
import EndlessRemix.Proofs.Number.Reals
import EndlessRemix.Proofs.Options.Resolve

/-!
# How far onsets are apart

The interval between onsets is kept in whole envelope frames: the samples of a frame are rounded
down, and the frames of the interval are rounded to the nearest number. In exact arithmetic this
gives one number of samples that consecutive onsets are never closer than, and that two clicks can
have between them. So the interval is kept for all sounds if that number is more than the interval
has samples. It is if no part of a sample was lost when the frame was rounded; else it need not be.
-/

namespace EndlessRemix

/-! ## Frames in exact arithmetic -/

namespace Exact

lemma whole_intCast (n : ℤ) : Scalar.whole (⟨n⟩ : Exact) = .int n := by
  show Whole.int (truncate ⟨n⟩) = .int n
  by_cases h : (0 : ℝ) ≤ n <;> simp [truncate, h]

variable (sampleRate : Exact) (o : AnalysisOptions Exact)

lemma frameSize_eq :
    frameSize sampleRate o = .int (max 1 ⌊sampleRate.real / o.envelopeRate.real⌋) := by
  show (Scalar.whole (⟨(⌊sampleRate.real / o.envelopeRate.real⌋ : ℤ)⟩ : Exact)).atLeastOne = _
  rw [whole_intCast]
  rfl

lemma leastGap_eq : leastGap o = .int (round (o.minBeatInterval.real * o.envelopeRate.real)) :=
  whole_intCast _

lemma samplesPerFrame_eq :
    samplesPerFrame sampleRate o = max 1 ⌊sampleRate.real / o.envelopeRate.real⌋₊ := by
  rw [samplesPerFrame, frameSize_eq]
  show (max 1 ⌊sampleRate.real / o.envelopeRate.real⌋).toNat = _
  rw [← Int.floor_toNat]
  omega

/-- The whole number of envelope frames that is nearest to the interval between onsets. -/
noncomputable def intervalFrames : ℕ :=
  (round (o.minBeatInterval.real * o.envelopeRate.real)).toNat

/-- The samples of one frame more than the interval between onsets. -/
noncomputable def leastDistance : ℕ :=
  (intervalFrames o + 1) * max 1 ⌊sampleRate.real / o.envelopeRate.real⌋₊

variable {sampleRate o}

lemma leastDistance_eq :
    leastDistance sampleRate o = (intervalFrames o + 1) * samplesPerFrame sampleRate o := by
  rw [leastDistance, samplesPerFrame_eq]

lemma isBelow_leastGap (hinterval : 0 ≤ o.minBeatInterval.real)
    (henvelope : 0 < o.envelopeRate.real) (n : ℕ) :
    (leastGap o).isBelow n = true ↔ intervalFrames o + 1 ≤ n := by
  have hround : 0 ≤ round (o.minBeatInterval.real * o.envelopeRate.real) := by
    rw [round_eq]
    exact Int.floor_nonneg.mpr (by positivity)
  rw [leastGap_eq, intervalFrames]
  simp only [Whole.isBelow, decide_eq_true_eq]
  omega

/-- The interval between onsets is shorter than the frames that are left between them, if a frame is
not shorter than it should be. -/
lemma interval_lt_leastDistance (hinterval : 0 ≤ o.minBeatInterval.real)
    (hframe : sampleRate.real
      ≤ (max 1 ⌊sampleRate.real / o.envelopeRate.real⌋₊ : ℕ) * o.envelopeRate.real) :
    o.minBeatInterval.real * sampleRate.real < leastDistance sampleRate o := by
  set size := max 1 ⌊sampleRate.real / o.envelopeRate.real⌋₊
  have hsize : (1 : ℝ) ≤ size := by exact_mod_cast le_max_left 1 _
  have hround : o.minBeatInterval.real * o.envelopeRate.real < intervalFrames o + 1 := by
    have hnear := (abs_le.mp (abs_sub_round (o.minBeatInterval.real * o.envelopeRate.real))).2
    have hle : (round (o.minBeatInterval.real * o.envelopeRate.real) : ℝ) ≤ intervalFrames o := by
      exact_mod_cast Int.self_le_toNat _
    linarith
  calc o.minBeatInterval.real * sampleRate.real
      ≤ o.minBeatInterval.real * (size * o.envelopeRate.real) := by gcongr
    _ = o.minBeatInterval.real * o.envelopeRate.real * size := by ring
    _ < (intervalFrames o + 1) * size := by gcongr
    _ = leastDistance sampleRate o := by rw [leastDistance, Nat.cast_mul, Nat.cast_succ]

/-! ## No two onsets are closer -/

/-- Consecutive onsets are at least one frame more than the interval apart. -/
lemma isChain_onsets (hinterval : 0 ≤ o.minBeatInterval.real) (henvelope : 0 < o.envelopeRate.real)
    (samples : Array Exact) :
    (onsets samples sampleRate o).IsChain fun p q => p + leastDistance sampleRate o ≤ q := by
  have hspaced := (selection_onsetFrames (envelope samples (frameSize sampleRate o))
    o.onsetThreshold (leastGap o)).spaced
  rw [onsets_eq, List.isChain_map]
  apply hspaced.imp
  intro i j hfar
  have hframes := (isBelow_leastGap hinterval henvelope _).mp hfar
  rw [leastDistance_eq, ← Nat.add_mul]
  exact Nat.mul_le_mul_right _ (by omega)

/-! ## Two clicks can be as close -/

lemma sumOfSquares_replicate (n : ℕ) (x : Exact) :
    sumOfSquares (Array.replicate n x) = ⟨n * x.real ^ 2⟩ := by
  apply Exact.ext
  rw [real_sumOfSquares, Array.size_replicate]
  calc ∑ t ∈ Finset.range n, Exact.realAt (Array.replicate n x) t ^ 2
      = ∑ _t ∈ Finset.range n, x.real ^ 2 := by
        apply Finset.sum_congr rfl
        intro t ht
        have hlt : t < (Array.replicate n x).size := by
          rwa [Array.size_replicate, ← Finset.mem_range]
        rw [Exact.realAt_of_lt hlt, Array.getElem_replicate]
    _ = n * x.real ^ 2 := by rw [Finset.sum_const, Finset.card_range, nsmul_eq_mul]

/-- The loudness of a constant sound is its size. -/
lemma rootMeanSquare_replicate {n : ℕ} (hn : 0 < n) (x : Exact) :
    rootMeanSquare (Array.replicate n x) = ⟨|x.real|⟩ := by
  have hsome : ¬(Array.replicate n x).isEmpty = true := by simp [hn.ne']
  have hcast : (n : ℝ) ≠ 0 := by exact_mod_cast hn.ne'
  rw [rootMeanSquare, if_neg hsome, sumOfSquares_replicate, Array.size_replicate]
  show (⟨Real.sqrt (n * x.real ^ 2 / n)⟩ : Exact) = _
  rw [mul_div_cancel_left₀ _ hcast, Real.sqrt_sq_eq_abs]

/-- A level above the threshold stands out. -/
lemma standsOut {size : ℕ} (hsize : 0 < size) {level threshold : Exact}
    (hlevel : |threshold.real| < |level.real|) : StandsOut size level threshold := by
  have hloudness (x : Exact) : levelLoudness size x = ⟨|x.real|⟩ := rootMeanSquare_replicate hsize x
  have hsilence : levelLoudness size (0 : Exact) = ⟨0⟩ := by
    rw [hloudness]
    show (⟨|((0 : ℕ) : ℝ)|⟩ : Exact) = ⟨0⟩
    simp
  have hloud : (0 : ℝ) < |level.real| := lt_of_le_of_lt (abs_nonneg _) hlevel
  refine ⟨?_, ?_, ?_, ?_⟩ <;> simp only [hsilence, hloudness]
  · exact hloud
  · exact lt_asymm (α := ℝ) hloud
  · exact lt_irrefl (α := ℝ) _
  · exact lt_of_le_of_lt (le_abs_self _) hlevel

/-- A click that comes as soon as it can is the second onset, and the last. -/
lemma onsets_soonest (hinterval : 0 ≤ o.minBeatInterval.real) (henvelope : 0 < o.envelopeRate.real) :
    onsets (click (intervalFrames o + 1) (samplesPerFrame sampleRate o)
        ⟨|o.onsetThreshold.real| + 1⟩) sampleRate o
      = [0, leastDistance sampleRate o] := by
  have hsize : 0 < samplesPerFrame sampleRate o := by
    rw [samplesPerFrame_eq]
    exact lt_of_lt_of_le one_pos (le_max_left 1 _)
  have hlevel : |o.onsetThreshold.real| < |(|o.onsetThreshold.real| + 1)| :=
    lt_of_lt_of_le (lt_add_one _) (le_abs_self _)
  have hframe : frameSize sampleRate o = .int (samplesPerFrame sampleRate o) := by
    rw [samplesPerFrame, frameSize_eq]
    show _ = Whole.int ((max 1 ⌊sampleRate.real / o.envelopeRate.real⌋).toNat : ℕ)
    congr 1
    omega
  have hgap := (isBelow_leastGap hinterval henvelope (intervalFrames o + 1)).mpr le_rfl
  rw [leastDistance_eq]
  exact onsets_click (Nat.succ_pos _) hframe hgap (standsOut hsize hlevel)

end Exact

/-! ## When the interval is kept -/

open Exact in
/-- Consecutive onsets are never closer than `leastDistance`, and so they keep an interval of at
least `minBeatInterval` seconds in all sounds exactly if that distance is more than the interval has
samples. It is as soon as an envelope frame, rounded down to whole samples, is not shorter than
`1 / envelopeRate` seconds. -/
theorem onsets_apart {sampleRate : Exact} {o : AnalysisOptions Exact}
    (henvelope : 0 < o.envelopeRate.real) (hinterval : 0 ≤ o.minBeatInterval.real) :
    (∀ samples, (onsets samples sampleRate o).IsChain
        fun p q : ℕ => p + leastDistance sampleRate o ≤ q)
      ∧ ((∀ samples, (onsets samples sampleRate o).IsChain
          fun p q : ℕ => o.minBeatInterval.real * sampleRate.real < (q : ℝ) - p)
        ↔ o.minBeatInterval.real * sampleRate.real < leastDistance sampleRate o)
      ∧ (sampleRate.real
          ≤ (max 1 ⌊sampleRate.real / o.envelopeRate.real⌋₊ : ℕ) * o.envelopeRate.real →
        o.minBeatInterval.real * sampleRate.real < leastDistance sampleRate o) := by
  refine ⟨isChain_onsets hinterval henvelope, ⟨?_, ?_⟩, interval_lt_leastDistance hinterval⟩
  · intro h
    have hclick := h (click (intervalFrames o + 1) (samplesPerFrame sampleRate o)
      ⟨|o.onsetThreshold.real| + 1⟩)
    rw [onsets_soonest hinterval henvelope] at hclick
    simpa using hclick
  · intro h samples
    apply (isChain_onsets hinterval henvelope samples).imp
    intro p q hpq
    have hpq' : (p : ℝ) + leastDistance sampleRate o ≤ q := by exact_mod_cast hpq
    linarith

/-- Two envelope frames a second, and two seconds between onsets. -/
noncomputable def twice : AnalysisOptions Exact := ⟨2, 2, 0, 2⟩

lemma twice_eq : twice = ⟨⟨2⟩, ⟨2⟩, ⟨0⟩, ⟨2⟩⟩ := by
  have htwo : (2 : Exact) = ⟨2⟩ := Exact.ext Nat.cast_ofNat
  have hzero : (0 : Exact) = ⟨0⟩ := Exact.ext Nat.cast_zero
  rw [twice, htwo, hzero]

lemma intervalFrames_twice : Exact.intervalFrames twice = 4 := by
  have hround : round ((2 : ℝ) * 2) = 4 := by norm_num
  simp [Exact.intervalFrames, twice_eq, hround]

/-- At four samples a second a frame has two, and the two seconds are kept. -/
theorem onsets_apart_twice :
    (0 : ℝ) < twice.envelopeRate.real ∧ (0 : ℝ) ≤ twice.minBeatInterval.real
      ∧ Exact.leastDistance ⟨4⟩ twice = 10
      ∧ ∀ samples, (onsets samples ⟨4⟩ twice).IsChain fun p q : ℕ => (2 * 4 : ℝ) < (q : ℝ) - p := by
  have henvelope : (0 : ℝ) < twice.envelopeRate.real := by norm_num [twice_eq]
  have hinterval : (0 : ℝ) ≤ twice.minBeatInterval.real := by norm_num [twice_eq]
  obtain ⟨-, hiff, hkept⟩ := @onsets_apart ⟨4⟩ twice henvelope hinterval
  refine ⟨henvelope, hinterval, ?_, hiff.mpr (hkept ?_)⟩
  · rw [Exact.leastDistance, intervalFrames_twice]
    norm_num [twice_eq]
  · norm_num [twice_eq]

/-- These options are accepted. -/
lemma resolve_twice :
    ({ windowSize := Setting.ofNumber ⟨2⟩
       envelopeRate := Setting.ofNumber ⟨2⟩
       onsetThreshold := Setting.ofNumber ⟨0⟩
       minBeatInterval := Setting.ofNumber ⟨2⟩ } : AnalysisSettings Exact).resolve = .ok twice := by
  have hwhole : Scalar.isWhole (⟨2⟩ : Exact) = true := by
    have hfloor : (⌊(2 : ℝ)⌋ : ℝ) = 2 := by norm_num
    have hsame : Scalar.floor (⟨2⟩ : Exact) = ⟨2⟩ := congrArg Exact.mk hfloor
    have hle : (⟨2⟩ : Exact) ≤ ⟨2⟩ := le_refl (2 : ℝ)
    have hfinite : Scalar.isFinite (⟨2⟩ : Exact) = true := rfl
    simp [Scalar.isWhole, Scalar.same, hsame, hle, hfinite]
  have hnot : ¬(⟨2⟩ : Exact) < 2 := lt_irrefl (2 : ℝ)
  have hbit : sharesNoBit (⟨2⟩ : Exact) = true := by
    have htwo : Scalar.whole (⟨2⟩ : Exact) = .int 2 := by
      simpa using Exact.whole_intCast 2
    have hone : Scalar.whole ((⟨2⟩ : Exact) - 1) = .int 1 := by
      have hsub : ((⟨2⟩ : Exact) - 1) = ⟨((1 : ℤ) : ℝ)⟩ := by
        show (⟨2 - ((1 : ℕ) : ℝ)⟩ : Exact) = _
        norm_num
      rw [hsub, Exact.whole_intCast]
    rw [sharesNoBit, htwo, hone]
    rfl
  have hpositive : ¬(⟨2⟩ : Exact) ≤ 0 := by
    show ¬(2 : ℝ) ≤ ((0 : ℕ) : ℝ)
    norm_num
  have hnonNegative (x : ℝ) (hx : 0 ≤ x) : ¬(⟨x⟩ : Exact) < 0 := by
    show ¬x < ((0 : ℕ) : ℝ)
    simpa using hx
  rw [twice_eq]
  apply AnalysisSettings.resolve_eq_ok.mpr
  exact ⟨Setting.windowSize_eq_ok.mpr ⟨rfl, hwhole, hnot, hbit⟩,
    Setting.positive_eq_ok.mpr ⟨⟨rfl, rfl⟩, hpositive⟩,
    Setting.nonNegative_eq_ok.mpr ⟨⟨rfl, rfl⟩, hnonNegative 0 le_rfl⟩,
    Setting.nonNegative_eq_ok.mpr ⟨⟨rfl, rfl⟩, hnonNegative 2 zero_le_two⟩⟩

open Exact in
/-- It is not true that onsets keep the interval with all accepted options: at three samples a
second a frame is rounded down to one, and five of them are less than two seconds. -/
theorem not_onsets_apart :
    ¬∀ (settings : AnalysisSettings Exact) (o : AnalysisOptions Exact) (sampleRate : Exact)
      (samples : Array Exact), settings.resolve = .ok o → 0 < sampleRate.real →
        (onsets samples sampleRate o).IsChain
          fun p q : ℕ => o.minBeatInterval.real * sampleRate.real < (q : ℝ) - p := by
  intro h
  have hclick := h _ twice ⟨3⟩ (click (intervalFrames twice + 1) (samplesPerFrame ⟨3⟩ twice)
    ⟨|twice.onsetThreshold.real| + 1⟩) resolve_twice (by norm_num)
  have hdistance : leastDistance ⟨3⟩ twice = 5 := by
    have hfloor : ⌊(3 : ℝ) / 2⌋₊ = 1 := by norm_num
    rw [leastDistance, intervalFrames_twice]
    simp [twice_eq, hfloor]
  rw [onsets_soonest (by norm_num [twice_eq]) (by norm_num [twice_eq]), hdistance] at hclick
  norm_num [twice_eq] at hclick

end EndlessRemix
