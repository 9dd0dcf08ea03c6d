import EndlessRemix.Proofs.Analysis.Selection
import Mathlib

/-!
# Clicks

A click is one loud frame, with silence before it and one frame after it. It is the only peak of its
envelope, whatever the arithmetic, if silence is quieter; so it is the second onset and the last, if
it does not come too soon.
-/

namespace EndlessRemix

variable {R : Type} [Scalar R] {frames size i : ℕ}

/-- One frame at a level, after some frames of silence and before another one. -/
def click (frames size : ℕ) (level : R) : Array R :=
  Array.ofFn fun i : Fin ((frames + 2) * size) => if i / size = frames then level else 0

/-- The loudness of a frame at a level. -/
def levelLoudness (size : ℕ) (level : R) : R := rootMeanSquare (Array.replicate size level)

lemma extract_click (level : R) (hsize : 0 < size) (hi : i < frames + 2) :
    (click frames size level).extract (i * size) (i * size + size)
      = Array.replicate size (if i = frames then level else 0) := by
  have hend : i * size + size ≤ (frames + 2) * size := by
    calc i * size + size = (i + 1) * size := by ring
      _ ≤ (frames + 2) * size := Nat.mul_le_mul_right _ hi
  apply Array.ext
  · rw [Array.size_extract, Array.size_replicate, click, Array.size_ofFn]
    omega
  · intro j hj _
    have hj' : j < size := by
      rw [Array.size_extract, click, Array.size_ofFn] at hj
      omega
    have hdiv : (i * size + j) / size = i := by
      rw [Nat.mul_comm, Nat.mul_add_div hsize, Nat.div_eq_of_lt hj', Nat.add_zero]
    simp only [Array.getElem_extract, click, Array.getElem_ofFn, Array.getElem_replicate, hdiv]

/-- Only one frame of a click is loud. -/
lemma frameLoudness_click (level : R) (hsize : 0 < size) :
    frameLoudness (click frames size level) size
      = Array.ofFn fun i : Fin (frames + 2) =>
          levelLoudness size (if i = frames then level else 0) := by
  have htotal : frameTotal (click frames size level).size size = frames + 2 := by
    rw [click, Array.size_ofFn, frameTotal, Nat.add_sub_assoc hsize, Nat.mul_comm,
      Nat.mul_add_div hsize, Nat.div_eq_of_lt (by omega), Nat.add_zero]
  apply Array.ext
  · rw [size_frameLoudness, htotal, Array.size_ofFn]
  · intro i _ hi
    rw [Array.size_ofFn] at hi
    simp only [frameLoudness, Array.getElem_ofFn]
    rw [extract_click level hsize hi, levelLoudness]

/-- A level stands out from silence and from a threshold. -/
structure StandsOut (size : ℕ) (level threshold : R) : Prop where
  above_silence : levelLoudness size 0 < levelLoudness size level
  not_below_silence : ¬levelLoudness size level < levelLoudness size 0
  silence_irrefl : ¬levelLoudness size (0 : R) < levelLoudness size 0
  above_threshold : threshold < levelLoudness size level

variable {level threshold : R}

/-- A click that stands out is the only peak. -/
lemma peak_click (hframes : 0 < frames) (hsize : 0 < size) (h : StandsOut size level threshold)
    (i : ℕ) : Peak (frameLoudness (click frames size level) size) threshold i ↔ i = frames := by
  rw [frameLoudness_click level hsize]
  constructor
  · rintro ⟨_, _, hleft, _, _⟩
    by_contra hne
    simp only [Array.getElem_ofFn, if_neg hne] at hleft
    -- nothing is below silence
    split_ifs at hleft
    · exact h.not_below_silence hleft
    · exact h.silence_irrefl hleft
  · rintro rfl
    have hbefore : i - 1 ≠ i := by omega
    refine ⟨hframes, by rw [Array.size_ofFn]; omega, ?_⟩
    simp only [Array.getElem_ofFn]
    simpa [hbefore] using ⟨h.above_silence, h.above_threshold⟩

/-- A click that stands out is the second onset, and the last, if it is more than the gap after the
start. -/
theorem onsets_click {sampleRate : R} {o : AnalysisOptions R} (hframes : 0 < frames)
    (hframe : frameSize sampleRate o = .int size) (hgap : (leastGap o).isBelow frames = true)
    (h : StandsOut size level o.onsetThreshold) :
    onsets (click frames size level) sampleRate o = [0, frames * size] := by
  have hsize : 0 < size := by
    have hone := one_le_atLeastOne hframe
    omega
  have hpeak := peak_click hframes hsize h
  have hselection : Selection
      (Peak (frameLoudness (click frames size level) size) o.onsetThreshold)
      (leastGap o) [0, frames] := by
    refine ⟨rfl, ?_, ?_, ?_, ?_⟩
    · simpa using hframes
    · intro i hi
      exact (hpeak i).mpr (by simpa using hi)
    · simpa using hgap
    · intro i hi hout
      simp [(hpeak i).mp hi] at hout
  have hselected := hselection.unique (selection_onsetFrames _ _ _)
  rw [onsets_eq, onsetFramesOf, samplesPerFrame, hframe]
  show (onsetFrames (frameLoudness (click frames size level) size) _ _).map _ = _
  rw [← hselected]
  simp [Whole.toNat]

end EndlessRemix
