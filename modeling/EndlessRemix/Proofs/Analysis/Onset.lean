import EndlessRemix.Analysis.Onset
import Mathlib

/-!
# Onsets in order

Onsets are positions in the samples, each after the one before: peaks come in order, none of them is
the first or the last frame of the envelope, and a frame has at least one sample.
-/

namespace EndlessRemix

variable {R : Type} [Scalar R]

/-! ## Frames -/

/-- A frame has at least one sample, or has no whole number of them. -/
lemma one_le_atLeastOne {w : Whole} {size : ℤ} (h : w.atLeastOne = .int size) : 1 ≤ size := by
  cases w with
  | int value =>
    obtain rfl := Whole.int.inj h
    exact le_max_left 1 value
  | negInf =>
    obtain rfl := Whole.int.inj h
    exact le_rfl
  | posInf => cases h
  | nan => cases h

lemma size_frameLoudness (samples : Array R) (size : ℕ) :
    (frameLoudness samples size).size = frameTotal samples.size size := by
  rw [frameLoudness, Array.size_ofFn]

/-- There is a frame for every place that begins one. -/
lemma lt_size_frameLoudness_iff (samples : Array R) {size i : ℕ} (hsize : 0 < size) :
    i < (frameLoudness samples size).size ↔ i * size < samples.size := by
  rw [size_frameLoudness, frameTotal, ← Nat.add_one_le_iff, Nat.le_div_iff_mul_le hsize,
    Nat.succ_mul]
  omega

/-- A frame that begins with a sample has a loudness that is not taken for silence. -/
lemma getElem_frameLoudness (samples : Array R) {size i : ℕ} (hsize : 0 < size)
    (hi : i < (frameLoudness samples size).size) :
    (frameLoudness samples size)[i]
      = Scalar.sqrt (sumOfSquares (samples.extract (i * size) (i * size + size))
          / Scalar.ofNat (min (i * size + size) samples.size - i * size)) := by
  have hstart := (lt_size_frameLoudness_iff samples hsize).mp hi
  have hsome : ¬(samples.extract (i * size) (i * size + size)).isEmpty = true := by
    rw [Array.isEmpty_iff_size_eq_zero, Array.size_extract]
    omega
  simp only [frameLoudness, Array.getElem_ofFn]
  rw [rootMeanSquare, if_neg hsome, Array.size_extract]
/-- A frame that is not the last one is full. -/
lemma mul_lt_of_succ_lt_frameTotal {count size i : ℕ} (h : i + 1 < frameTotal count size) :
    (i + 1) * size < count := by
  have hpos : 0 < size := by
    rcases Nat.eq_zero_or_pos size with rfl | hpos
    · simp [frameTotal] at h
    · exact hpos
  have hle : (i + 2) * size ≤ count + size - 1 := (Nat.le_div_iff_mul_le hpos).mp h
  have hsplit : (i + 2) * size = (i + 1) * size + size := by ring
  omega

/-- One frame holds everything, if its size is not a number of samples. -/
lemma size_envelope_le_one (samples : Array R) {w : Whole} (h : ∀ size, w ≠ .int size) :
    (envelope samples w).size ≤ 1 := by
  cases w with
  | int size => exact absurd rfl (h size)
  | posInf =>
    rw [envelope, size_frameLoudness, frameTotal]
    rcases Nat.eq_zero_or_pos samples.size with h0 | hpos
    · simp [h0]
    · exact Nat.lt_succ_iff.mp ((Nat.div_lt_iff_lt_mul hpos).mpr (by omega))
  | negInf =>
    rw [envelope]
    split_ifs <;> simp
  | nan =>
    rw [envelope]
    split_ifs <;> simp

/-! ## Peaks -/

/-- A peak has a frame on either side. -/
lemma bounds_of_isPeak {loudness : Array R} {threshold : R} {i : ℕ}
    (h : isPeak loudness threshold i = true) : 0 < i ∧ i + 1 < loudness.size := by
  cases i with
  | zero => cases h
  | succ before =>
    refine ⟨Nat.succ_pos before, ?_⟩
    by_contra hge
    rw [isPeak, Array.getElem?_eq_none (by omega : loudness.size ≤ before + 2)] at h
    split at h
    · rename_i hright
      cases hright
    · cases h

lemma bounds_of_mem_peaks {loudness : Array R} {threshold : R} {i : ℕ}
    (h : i ∈ peaks loudness threshold) : 0 < i ∧ i + 1 < loudness.size :=
  bounds_of_isPeak (List.mem_filter.mp h).2

lemma pairwise_peaks (loudness : Array R) (threshold : R) :
    (peaks loudness threshold).Pairwise (· < ·) :=
  List.Pairwise.filter _ List.pairwise_lt_range

/-- What is taken is among what was there, in the same order. -/
lemma sublist_takeSpaced (gap : Whole) (last : ℕ) (frames : List ℕ) :
    (takeSpaced gap last frames).Sublist frames := by
  induction frames generalizing last with
  | nil => exact List.Sublist.refl _
  | cons i rest ih =>
    rw [takeSpaced]
    split_ifs
    · exact (ih i).cons_cons i
    · exact (ih last).cons i

lemma mem_onsetFrames {loudness : Array R} {threshold : R} {gap : Whole} {i : ℕ}
    (h : i ∈ onsetFrames loudness threshold gap) : i = 0 ∨ 0 < i ∧ i + 1 < loudness.size := by
  rcases List.mem_cons.mp h with rfl | hmem
  · exact .inl rfl
  · exact .inr (bounds_of_mem_peaks ((sublist_takeSpaced gap 0 _).subset hmem))

lemma pairwise_onsetFrames (loudness : Array R) (threshold : R) (gap : Whole) :
    (onsetFrames loudness threshold gap).Pairwise (· < ·) := by
  refine List.pairwise_cons.mpr
    ⟨?_, (pairwise_peaks loudness threshold).sublist (sublist_takeSpaced gap 0 _)⟩
  intro i hi
  exact (bounds_of_mem_peaks ((sublist_takeSpaced gap 0 _).subset hi)).1

/-! ## Onsets -/

section

variable (samples : Array R) (sampleRate : R) (o : AnalysisOptions R)

/-- Onsets come one after another. -/
theorem pairwise_onsets : (onsets samples sampleRate o).Pairwise (· < ·) := by
  have hframes := pairwise_onsetFrames (envelope samples (frameSize sampleRate o)) o.onsetThreshold
    (leastGap o)
  unfold onsets
  dsimp only
  split
  · rename_i size hsize
    have hpos : 0 < size.toNat := by
      have := one_le_atLeastOne hsize
      omega
    refine List.pairwise_map.mpr (hframes.imp ?_)
    intro i j hij
    exact Nat.mul_lt_mul_of_pos_right hij hpos
  · exact hframes

/-- No onset is beyond the samples. -/
theorem le_size_of_mem_onsets {i : ℕ} (h : i ∈ onsets samples sampleRate o) : i ≤ samples.size := by
  unfold onsets at h
  dsimp only at h
  split at h
  · rename_i size hsize
    obtain ⟨frame, hframe, rfl⟩ := List.mem_map.mp h
    rcases mem_onsetFrames hframe with rfl | ⟨-, hlt⟩
    · simp
    · rw [hsize, envelope, size_frameLoudness] at hlt
      have hfull := mul_lt_of_succ_lt_frameTotal hlt
      have hsplit : (frame + 1) * size.toNat = frame * size.toNat + size.toNat := by ring
      omega
  · rename_i hsize
    have hone := size_envelope_le_one samples hsize
    rcases mem_onsetFrames h with rfl | ⟨hpos, hlt⟩
    · exact Nat.zero_le _
    · omega

end

end EndlessRemix
