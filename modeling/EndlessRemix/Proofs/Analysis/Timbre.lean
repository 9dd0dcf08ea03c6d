import EndlessRemix.Proofs.Analysis.Fourier
import EndlessRemix.Proofs.Analysis.Window

/-!
# The bands of the timbre

The bins of a spectrum are shared out among bands of equal width that lie side by side, from the
lowest bin on; fewer bins than there are bands are left over at the top. With every accepted window
of more than 16 samples the width is above zero. Then each band rises with each of its bins and with
no other one, and a louder pulse in a beat raises all of its timbre. But windows of 2, 4, 8 and 16
samples are accepted too. Their spectra have fewer bins than there are bands, so no band has a bin,
and the timbre of every beat of every song is the same.
-/

namespace EndlessRemix

open Double (value?)
open Exact (realAt)

/-! ## Bands side by side -/

namespace Bands

/-- The bins of a band. -/
def bins (bands : Bands) (band : ℕ) : Finset ℕ :=
  Finset.Ico (band * bands.width) (band * bands.width + bands.width)

/-- Bands share out the bins of a spectrum from the lowest one on: all are equally wide, no two have
a bin in common, the first ones leave no gap, and fewer bins than there are bands are left over. -/
structure SideBySide (bands : Bands) (size : ℕ) : Prop where
  card_bins : ∀ band, (bands.bins band).card = bands.width
  disjoint : ∀ band band', band ≠ band' → Disjoint (bands.bins band) (bands.bins band')
  first : ∀ count, (Finset.range count).biUnion bands.bins = Finset.range (count * bands.width)
  inside : bands.count * bands.width ≤ size
  left_over : size < bands.count * bands.width + bands.count

variable {bands : Bands} {size count band i : ℕ}

lemma mem_bins :
    i ∈ bands.bins band ↔ band * bands.width ≤ i ∧ i < band * bands.width + bands.width :=
  Finset.mem_Ico

lemma div_of_mem_bins (h : i ∈ bands.bins band) : i / bands.width = band := by
  obtain ⟨hlow, hhigh⟩ := mem_bins.mp h
  exact Nat.div_eq_of_lt_le hlow (by rwa [Nat.succ_mul])

lemma disjoint_bins {band' : ℕ} (hne : band ≠ band') :
    Disjoint (bands.bins band) (bands.bins band') := by
  rw [Finset.disjoint_left]
  intro i hi hi'
  exact hne ((div_of_mem_bins hi).symm.trans (div_of_mem_bins hi'))

lemma biUnion_bins (bands : Bands) (count : ℕ) :
    (Finset.range count).biUnion bands.bins = Finset.range (count * bands.width) := by
  induction count with
  | zero => rw [Finset.range_zero, Finset.biUnion_empty, Nat.zero_mul, Finset.range_zero]
  | succ count ih =>
    rw [Finset.range_add_one, Finset.biUnion_insert, ih, Nat.succ_mul]
    ext i
    rw [Finset.mem_union, mem_bins, Finset.mem_range, Finset.mem_range]
    omega

/-- The bins that are shared out lie side by side. -/
theorem sideBySide_share (size : ℕ) (hcount : 0 < count) : (share size count).SideBySide size := by
  have hdivision : count * (size / count) + size % count = size := Nat.div_add_mod size count
  have hrest : size % count < count := Nat.mod_lt size hcount
  exact
    { card_bins := fun band => by rw [bins, Nat.card_Ico, Nat.add_sub_cancel_left]
      disjoint := fun _ _ => disjoint_bins
      first := biUnion_bins _
      inside := by
        show count * (size / count) ≤ size
        omega
      left_over := by
        show size < count * (size / count) + count
        omega }

/-- A bin of a band is one of the spectrum. -/
lemma SideBySide.bins_end (h : bands.SideBySide size) (hband : band < bands.count) :
    band * bands.width + bands.width ≤ size := by
  calc band * bands.width + bands.width = (band + 1) * bands.width := (Nat.succ_mul _ _).symm
    _ ≤ bands.count * bands.width := Nat.mul_le_mul_right _ hband
    _ ≤ size := h.inside

end Bands

/-- The bands of the timbre for the spectrum of a window with so many samples. -/
def timbreBands (windowSize : ℕ) : Bands := .share (windowSize / 2 + 1) featureDimensions

lemma sideBySide_timbreBands (n : ℕ) : (timbreBands n).SideBySide (n / 2 + 1) :=
  Bands.sideBySide_share _ (by decide)

/-- Bands have a bin if there are as many bins as bands. -/
lemma width_timbreBands_pos_iff {n : ℕ} : 0 < (timbreBands n).width ↔ 22 ≤ n := by
  have hwidth : (timbreBands n).width = (n / 2 + 1) / 12 := rfl
  rw [hwidth]
  omega

lemma width_timbreBands_of_le {n : ℕ} (h : n ≤ 16) : (timbreBands n).width = 0 := by
  have hnot : ¬0 < (timbreBands n).width := by
    rw [width_timbreBands_pos_iff]
    omega
  exact Nat.eq_zero_of_not_pos hnot

/-! ## What a band hears -/

section

variable {R : Type} [Analytic R] {spectrum spectrum' : Array R} {bands : Bands} {band : ℕ}

/-- The energy of a band depends on its own bins. -/
lemma bandEnergy_congr {start width : ℕ} (hsize : spectrum'.size = spectrum.size)
    (h : ∀ i ∈ Finset.Ico start (start + width), spectrum'[i]? = spectrum[i]?) :
    bandEnergy spectrum' start width = bandEnergy spectrum start width := by
  have hbins :
      spectrum'.extract start (start + width) = spectrum.extract start (start + width) := by
    apply Array.ext_getElem?
    intro j
    rw [Array.getElem?_extract, Array.getElem?_extract, hsize]
    by_cases hj : j < min (start + width) spectrum.size - start
    · rw [if_pos hj, if_pos hj, h _ (Finset.mem_Ico.mpr ⟨by omega, by omega⟩)]
    · rw [if_neg hj, if_neg hj]
  rw [bandEnergy, bandEnergy, hsize, hbins]

lemma getElem?_timbreOf (spectrum : Array R) (hband : band < bands.count) :
    (timbreOf spectrum bands)[band]?
      = some (Analytic.log (bandEnergy spectrum (band * bands.width) bands.width + logFloor)) := by
  rw [timbreOf, List.getElem?_map, List.getElem?_range hband, Option.map_some]

/-- Spectra that agree on the bins of a band have the same timbre there. -/
theorem getElem?_timbreOf_congr (hsize : spectrum'.size = spectrum.size)
    (hband : band < bands.count) (h : ∀ i ∈ bands.bins band, spectrum'[i]? = spectrum[i]?) :
    (timbreOf spectrum' bands)[band]? = (timbreOf spectrum bands)[band]? := by
  rw [getElem?_timbreOf _ hband, getElem?_timbreOf _ hband, bandEnergy_congr hsize h]

/-- Bands without a bin have the timbre of silence. -/
lemma timbreOf_of_width_eq_zero (spectrum : Array R) (hwidth : bands.width = 0) :
    timbreOf spectrum bands = List.replicate bands.count (Analytic.log (0 + logFloor)) := by
  have henergy : bandEnergy spectrum 0 0 = 0 := by
    rw [bandEnergy, if_pos (Nat.zero_le _), Array.extract_eq_empty_of_le (by omega)]
    rfl
  refine List.eq_replicate_iff.mpr ⟨by rw [timbreOf, List.length_map, List.length_range], ?_⟩
  intro x hx
  obtain ⟨band, -, rfl⟩ := List.mem_map.mp hx
  rw [hwidth, Nat.mul_zero, henergy]

end

section

variable {spectrum spectrum' : Array Exact} {bands : Bands} {band : ℕ}

/-- In exact arithmetic the energy of a band is the sum of its bins. -/
lemma real_bandEnergy {start width : ℕ} (hend : start + width ≤ spectrum.size) :
    (bandEnergy spectrum start width).real
      = ∑ i ∈ Finset.Ico start (start + width), realAt spectrum i := by
  rw [bandEnergy, if_pos hend]
  -- the last bin of the band is the one that is added last
  induction width with
  | zero =>
    rw [Nat.add_zero, Array.extract_eq_empty_of_le (by omega), Finset.Ico_self, Finset.sum_empty]
    exact Nat.cast_zero
  | succ width ih =>
    have hlast : start + width < spectrum.size := hend
    have hpush : spectrum.extract start (start + (width + 1))
        = (spectrum.extract start (start + width)).push spectrum[start + width] := by
      rw [Array.push_extract_getElem, Nat.min_eq_left (by omega), Nat.add_assoc]
    rw [hpush, Array.foldl_push, ← Nat.add_assoc, Finset.sum_Ico_succ_top (by omega),
      ← ih (by omega), Exact.realAt_of_lt hlast]
    rfl

/-- In exact arithmetic the timbre is the logarithm of the sum of a band's bins. -/
lemma getElem?_timbreOf_exact (hbands : bands.SideBySide spectrum.size)
    (hband : band < bands.count) :
    (timbreOf spectrum bands)[band]?
      = some ⟨Real.log (∑ i ∈ bands.bins band, realAt spectrum i + 1e-9)⟩ := by
  have henergy := real_bandEnergy (hbands.bins_end hband)
  rw [getElem?_timbreOf spectrum hband, Bands.bins, ← henergy]
  rfl

/-- The second timbre is higher than the first in a band. -/
def HigherAt (band : ℕ) (timbre timbre' : List Exact) : Prop :=
  ∃ x x', timbre[band]? = some x ∧ timbre'[band]? = some x' ∧ x < x'

/-- More energy in a band makes its timbre higher. -/
lemma higherAt_of_lt (hbands : bands.SideBySide spectrum.size)
    (hsize : spectrum'.size = spectrum.size) (hspectrum : ∀ x ∈ spectrum, 0 ≤ x.real)
    (hband : band < bands.count)
    (h : ∑ i ∈ bands.bins band, realAt spectrum i < ∑ i ∈ bands.bins band, realAt spectrum' i) :
    HigherAt band (timbreOf spectrum bands) (timbreOf spectrum' bands) := by
  have hpos : 0 ≤ ∑ i ∈ bands.bins band, realAt spectrum i :=
    Finset.sum_nonneg fun i _ => Exact.realAt_nonneg hspectrum i
  refine ⟨_, _, getElem?_timbreOf_exact hbands hband,
    getElem?_timbreOf_exact (hsize.symm ▸ hbands) hband, ?_⟩
  exact Real.log_lt_log (by positivity) (by linarith)

/-- A band is higher if one of its bins is, and no other band is. -/
theorem higherAt_of_bin (hbands : bands.SideBySide spectrum.size)
    (hsize : spectrum'.size = spectrum.size) (hspectrum : ∀ x ∈ spectrum, 0 ≤ x.real)
    (hband : band < bands.count) {i : ℕ} (hi : i ∈ bands.bins band)
    (hhigher : realAt spectrum i < realAt spectrum' i)
    (hother : ∀ j, j ≠ i → spectrum'[j]? = spectrum[j]?) :
    HigherAt band (timbreOf spectrum bands) (timbreOf spectrum' bands)
      ∧ ∀ other < bands.count, other ≠ band →
        (timbreOf spectrum' bands)[other]? = (timbreOf spectrum bands)[other]? := by
  constructor
  · -- all other bins of the band are as strong as before
    apply higherAt_of_lt hbands hsize hspectrum hband
    apply Finset.sum_lt_sum
    · intro j _
      by_cases hj : j = i
      · rw [hj]
        exact hhigher.le
      · rw [realAt, realAt, hother j hj]
    · exact ⟨i, hi, hhigher⟩
  · intro other hcount hne
    apply getElem?_timbreOf_congr hsize hcount
    intro j hj
    apply hother
    rintro rfl
    exact Finset.disjoint_left.mp (Bands.disjoint_bins hne) hj hi

/-- If all bins are equally strong, the stronger ones make every band higher that has a bin. -/
theorem higherAt_of_flat (hbands : bands.SideBySide spectrum.size) (hwidth : 0 < bands.width)
    (hsize : spectrum'.size = spectrum.size) {strength strength' : ℝ} (hnonneg : 0 ≤ strength)
    (hstronger : strength < strength') (hflat : ∀ j < spectrum.size, realAt spectrum j = strength)
    (hflat' : ∀ j < spectrum.size, realAt spectrum' j = strength') (hband : band < bands.count) :
    HigherAt band (timbreOf spectrum bands) (timbreOf spectrum' bands) := by
  apply higherAt_of_lt hbands hsize ?_ hband
  · apply Finset.sum_lt_sum_of_nonempty
    · rwa [← Finset.card_pos, hbands.card_bins]
    · intro j hj
      have hjsize : j < spectrum.size :=
        (Bands.mem_bins.mp hj).2.trans_le (hbands.bins_end hband)
      rwa [hflat j hjsize, hflat' j hjsize]
  · intro x hx
    obtain ⟨j, hj, rfl⟩ := Array.mem_iff_getElem.mp hx
    rwa [← Exact.realAt_of_lt hj, hflat j hj]

end

/-! ## A pulse -/

/-- Silence but for one sample. -/
def pulse (count place : ℕ) (level : ℝ) : Array Exact :=
  Array.ofFn fun i : Fin count => if i = place then ⟨level⟩ else ⟨0⟩

@[simp] lemma size_pulse (count place : ℕ) (level : ℝ) : (pulse count place level).size = count :=
  Array.size_ofFn

section

variable {n k t : ℕ}

lemma norm_unityRoot (n : ℕ) : ‖unityRoot n‖ = 1 := by
  have hangle : -(2 : ℕ) * Real.pi * Complex.I / n = ((-2 * Real.pi / n : ℝ) : ℂ) * Complex.I := by
    push_cast
    ring
  rw [unityRoot, hangle, Complex.norm_exp_ofReal_mul_I]

/-- The transform of a single value has that size everywhere. -/
lemma norm_fourier_single (ht : t < n) (c : ℝ) (q : ℕ) :
    ‖fourier n (fun i => ((if i = t then c else 0 : ℝ) : ℂ)) q‖ = |c| := by
  rw [fourier, Finset.sum_eq_single_of_mem t (Finset.mem_range.mpr ht), if_pos rfl, norm_mul,
    norm_pow, norm_unityRoot, one_pow, mul_one, Complex.norm_real, Real.norm_eq_abs]
  intro i _ hi
  rw [if_neg hi, Complex.ofReal_zero, zero_mul]

/-- The spectrum of a frame that is silent but for one sample is flat. -/
theorem magnitudeSpectrum_single {frame : Array Exact} (hsize : frame.size = 2 ^ k) (hk : 1 ≤ k)
    (hk29 : k ≤ 29) (ht : t < 2 ^ k) {c : ℝ}
    (hframe : ∀ i, realAt frame i = if i = t then c else 0) :
    ∃ spectrum, magnitudeSpectrum frame = .ok spectrum ∧ spectrum.size = 2 ^ k / 2 + 1
      ∧ ∀ j < 2 ^ k / 2 + 1, realAt spectrum j = |c| := by
  refine ⟨_, magnitudeSpectrum_two_pow hsize hk (by omega), by rw [Array.size_ofFn, hsize], ?_⟩
  intro j hj
  have hjsize : j < 2 ^ k := by
    have htwo : 2 ^ 1 ≤ 2 ^ k := Nat.pow_le_pow_right two_pos hk
    omega
  have hsamples : ∀ i < 2 ^ k,
      (valueAt (frame.map fun value => (⟨value, 0⟩ : Phasor Exact)) i).toComplex
        = ((if i = t then c else 0 : ℝ) : ℂ) := by
    intro i hi
    rw [← hsize] at hi
    rw [toComplex_valueAt_map hi, ← Exact.realAt_of_lt hi, hframe]
  rw [Exact.realAt_of_lt (by rwa [Array.size_ofFn, hsize]), Array.getElem_ofFn,
    Phasor.magnitude_eq, valueAt_transform (by rw [Array.size_map, hsize]) hsamples hjsize]
  exact norm_fourier_single ht c j

/-- The window fades nothing out but its ends. -/
lemma windowHeight_pos (ht : 0 < t) (htn : t + 1 < n) :
    0 < (windowHeight (⟨n⟩ : Exact) t).real := by
  have ht' : (0 : ℝ) < t := by exact_mod_cast ht
  have htn' : (t : ℝ) < n - 1 := by
    rw [lt_sub_iff_add_lt]
    exact_mod_cast htn
  have hsin : 0 < Real.sin (Real.pi * (t / (n - 1))) := by
    apply Real.sin_pos_of_pos_of_lt_pi
    · exact mul_pos Real.pi_pos (div_pos ht' (ht'.trans htn'))
    · exact mul_lt_of_lt_one_right Real.pi_pos ((div_lt_one (ht'.trans htn')).mpr htn')
  have hangle : ((2 : ℕ) : ℝ) * Real.pi * t / (n - ((1 : ℕ) : ℝ))
      = 2 * (Real.pi * (t / (n - 1))) := by
    push_cast
    ring
  have hheight : (windowHeight (⟨n⟩ : Exact) t).real
      = 0.5 - 0.5 * Real.cos (((2 : ℕ) : ℝ) * Real.pi * t / (n - ((1 : ℕ) : ℝ))) := rfl
  -- half the angle makes it a square, which is zero at the ends only
  have hsquare : (windowHeight (⟨n⟩ : Exact) t).real = Real.sin (Real.pi * (t / (n - 1))) ^ 2 := by
    rw [hheight, hangle, Real.cos_two_mul, Real.cos_sq']
    ring
  rw [hsquare]
  positivity

lemma size_windowed_pulse {count place first : ℕ} (hend : first + n ≤ count) (level : ℝ) :
    (windowed (⟨n⟩ : Exact) ((pulse count place level).extract first (first + n))).size = n := by
  rw [windowed, Array.size_mapIdx, Array.size_extract, size_pulse]
  omega

/-- Of a pulse that is faded in and out one sample is left. -/
lemma realAt_windowed_pulse {count first : ℕ} (hend : first + n ≤ count) (ht : t < n) (level : ℝ)
    (i : ℕ) :
    realAt (windowed ⟨n⟩ ((pulse count (first + t) level).extract first (first + n))) i
      = if i = t then level * (windowHeight (⟨n⟩ : Exact) t).real else 0 := by
  have hsize := @size_windowed_pulse n count (first + t) first hend level
  by_cases hi : i < n
  · rw [Exact.realAt_of_lt (hsize.symm ▸ hi)]
    simp only [windowed, Array.getElem_mapIdx, Array.getElem_extract, pulse, Array.getElem_ofFn,
      Nat.add_left_cancel_iff]
    by_cases heq : i = t
    · rw [if_pos heq, if_pos heq, heq]
      rfl
    · rw [if_neg heq, if_neg heq]
      exact zero_mul _
  · rw [realAt, Array.getElem?_eq_none (hsize.symm ▸ not_lt.mp hi), if_neg (by omega)]
    rfl

end

/-! ## The timbre of a beat -/

section

variable {R : Type} [Analytic R]

lemma size_of_magnitudeSpectrum {frame spectrum : Array R}
    (h : magnitudeSpectrum frame = .ok spectrum) : spectrum.size = frame.size / 2 + 1 := by
  unfold magnitudeSpectrum at h
  dsimp only at h
  split_ifs at h
  split at h
  · cases h
  · rw [← Except.ok.inj h, Array.size_ofFn]

/-- The timbre of a beat is that of the spectrum of its frame. -/
lemma timbre_of_measureBeat {samples : Array R} {sampleRate windowSize : R}
    {size index start stop : ℕ} {beat : Beat R}
    (h : measureBeat samples sampleRate windowSize size index start stop = .ok beat) :
    ∃ spectrum, magnitudeSpectrum (windowed windowSize
        (samples.extract (frameStart start stop size samples.size)
          (frameStart start stop size samples.size + size))) = .ok spectrum
      ∧ beat.timbre = timbreOf spectrum (.share spectrum.size featureDimensions) := by
  unfold measureBeat at h
  obtain ⟨spectrum, hspectrum, h⟩ := bind_eq_ok.mp h
  exact ⟨spectrum, hspectrum, by rw [← pure_eq_ok.mp h]⟩

/-- What is paired with an entry of the second list is one of the first. -/
lemma exists_of_forall₂ {α β : Type} {r : α → β → Prop} {xs : List α} {ys : List β} {y : β}
    (h : List.Forall₂ r xs ys) (hy : y ∈ ys) : ∃ x ∈ xs, r x y := by
  induction h with
  | nil => cases hy
  | cons hxy _ ih =>
    rcases List.mem_cons.mp hy with rfl | hy
    · exact ⟨_, List.mem_cons_self, hxy⟩
    · obtain ⟨x, hx, hr⟩ := ih hy
      exact ⟨x, List.mem_cons_of_mem _ hx, hr⟩

/-- The timbre of every beat that is found is that of a spectrum half as wide as the window. -/
theorem timbre_of_analyzeBeats [Memory] {buffer : SampleBuffer R} {o : AnalysisOptions R} {n : ℕ}
    {beats : List (Beat R)} (hwhole : Scalar.isWhole o.windowSize = true)
    (hwindow : Scalar.whole o.windowSize = .int n) (hpos : 0 < n)
    (h : analyzeBeats buffer o = .ok beats) :
    ∀ beat ∈ beats, ∃ spectrum : Array R, spectrum.size = n / 2 + 1
      ∧ beat.timbre = timbreOf spectrum (timbreBands n) := by
  have hchannels : buffer.channels ≠ [] := by
    intro hnil
    rw [analyzeBeats, hnil] at h
    cases h
  have hframe := frameLength?_of_whole hwhole hwindow
  split_ifs at hframe
  · intro beat hbeat
    obtain ⟨⟨⟨start, stop⟩, index⟩, hmem, hmeasure⟩ :=
      exists_of_forall₂ (of_analyzeBeats hchannels hframe h) hbeat
    obtain ⟨hlength, hstop⟩ := of_mem_beatBounds hpos (List.fst_mem_of_mem_zipIdx hmem)
    rw [← size_mono] at hstop
    obtain ⟨spectrum, hspectrum, htimbre⟩ := timbre_of_measureBeat hmeasure
    have hsize := size_of_magnitudeSpectrum hspectrum
    rw [windowed, Array.size_mapIdx, size_frame hlength hstop] at hsize
    rw [hsize] at htimbre
    exact ⟨spectrum, hsize, htimbre⟩
  · rw [analyzeBeats_eq hchannels, hframe] at h
    cases h

end

section

variable {k start stop count t : ℕ}

/-- A beat whose frame is silent but for one sample is equally strong in all bins. -/
lemma exists_beat_pulse (sampleRate : Exact) (index : ℕ) (hk : 1 ≤ k) (hk29 : k ≤ 29)
    (hlength : start + 2 ^ k ≤ stop) (hstop : stop ≤ count) (ht : t < 2 ^ k) (level : ℝ) :
    ∃ beat spectrum, measureBeat (pulse count (frameStart start stop (2 ^ k) count + t) level)
        sampleRate ⟨(2 ^ k : ℕ)⟩ (2 ^ k) index start stop = .ok beat
      ∧ spectrum.size = 2 ^ k / 2 + 1
      ∧ beat.timbre = timbreOf spectrum (timbreBands (2 ^ k))
      ∧ ∀ j < 2 ^ k / 2 + 1,
          realAt spectrum j = |level * (windowHeight (⟨(2 ^ k : ℕ)⟩ : Exact) t).real| := by
  obtain ⟨beat, hbeat⟩ : ∃ beat,
      measureBeat (pulse count (frameStart start stop (2 ^ k) count + t) level) sampleRate
        ⟨(2 ^ k : ℕ)⟩ (2 ^ k) index start stop = .ok beat :=
    exists_measureBeat hk (by omega) hlength (by rwa [size_pulse])
  obtain ⟨spectrum, hspectrum, htimbre⟩ := timbre_of_measureBeat hbeat
  rw [size_pulse] at hspectrum
  have hend : frameStart start stop (2 ^ k) count + 2 ^ k ≤ count := by
    rw [frameStart]
    omega
  obtain ⟨flat, hflat, hsize, hvalue⟩ := magnitudeSpectrum_single (size_windowed_pulse hend level)
    hk hk29 ht (realAt_windowed_pulse hend ht level)
  obtain rfl : flat = spectrum := Except.ok.inj (hflat.symm.trans hspectrum)
  rw [hsize] at htimbre
  exact ⟨beat, flat, hbeat, hsize, htimbre, hvalue⟩

end

/-! ## Accepted windows -/

/-- A bin of a band makes it higher and leaves the other bands as they are. -/
def Bands.HearBins (bands : Bands) (size : ℕ) : Prop :=
  ∀ spectrum spectrum' : Array Exact, spectrum.size = size → spectrum'.size = size →
    (∀ x ∈ spectrum, 0 ≤ x.real) → ∀ band < bands.count, ∀ i ∈ bands.bins band,
      realAt spectrum i < realAt spectrum' i → (∀ j, j ≠ i → spectrum'[j]? = spectrum[j]?) →
        HigherAt band (timbreOf spectrum bands) (timbreOf spectrum' bands)
          ∧ ∀ other < bands.count, other ≠ band →
            (timbreOf spectrum' bands)[other]? = (timbreOf spectrum bands)[other]?

/-- A louder pulse in the frame of a beat makes its timbre higher in all bands, wherever the pulse
is but at the ends of the frame. -/
def HearsPulses (size : ℕ) : Prop :=
  ∀ (sampleRate : Exact) (index start stop count t : ℕ) (level level' : ℝ),
    start + size ≤ stop → stop ≤ count → 0 < t → t + 1 < size → 0 ≤ level → level < level' →
      ∃ beat beat', measureBeat (pulse count (frameStart start stop size count + t) level)
          sampleRate ⟨size⟩ size index start stop = .ok beat
        ∧ measureBeat (pulse count (frameStart start stop size count + t) level')
          sampleRate ⟨size⟩ size index start stop = .ok beat'
        ∧ ∀ band < 12, HigherAt band beat.timbre beat'.timbre

lemma hearBins_of_sideBySide {bands : Bands} {size : ℕ} (hbands : bands.SideBySide size) :
    bands.HearBins size := by
  rintro spectrum spectrum' rfl hsize hspectrum band hband i hi hhigher hother
  exact higherAt_of_bin hbands hsize hspectrum hband hi hhigher hother

/-- Pulses are heard if bands have bins. -/
theorem hearsPulses_two_pow {k : ℕ} (hk : 5 ≤ k) (hk29 : k ≤ 29) : HearsPulses (2 ^ k) := by
  intro sampleRate index start stop count t level level' hlength hstop ht htk hlevel hlouder
  have hexists := exists_beat_pulse (k := k) (t := t) sampleRate index (by omega) hk29 hlength hstop
    (by omega)
  obtain ⟨beat, spectrum, hbeat, hsize, htimbre, hflat⟩ := hexists level
  obtain ⟨beat', spectrum', hbeat', hsize', htimbre', hflat'⟩ := hexists level'
  have hheight := windowHeight_pos ht htk
  have hwidth : 0 < (timbreBands (2 ^ k)).width := by
    have hlarge : 2 ^ 5 ≤ 2 ^ k := Nat.pow_le_pow_right two_pos hk
    exact width_timbreBands_pos_iff.mpr (by omega)
  refine ⟨beat, beat', hbeat, hbeat', ?_⟩
  intro band hband
  rw [htimbre, htimbre']
  rw [← hsize] at hflat hflat'
  refine higherAt_of_flat (hsize ▸ sideBySide_timbreBands (2 ^ k)) hwidth (hsize'.trans hsize.symm)
    (abs_nonneg _) ?_ hflat hflat' hband
  rw [abs_of_nonneg (by positivity), abs_of_pos (mul_pos (hlevel.trans_lt hlouder) hheight)]
  exact mul_lt_mul_of_pos_right hlouder hheight

/-- No pulse is heard if bands have no bins. -/
theorem not_hearsPulses_two_pow {k : ℕ} (hk : 2 ≤ k) (hk4 : k ≤ 4) : ¬HearsPulses (2 ^ k) := by
  intro hhears
  have hlong : 2 ^ 2 ≤ 2 ^ k := Nat.pow_le_pow_right two_pos hk
  have hwidth : (timbreBands (2 ^ k)).width = 0 :=
    width_timbreBands_of_le (Nat.pow_le_pow_right two_pos hk4)
  obtain ⟨beat, beat', hbeat, hbeat', hheard⟩ :=
    hhears ⟨8000⟩ 0 0 (2 ^ k) (2 ^ k) 1 0 1 (by omega) le_rfl one_pos (by omega) le_rfl one_pos
  have hexists := exists_beat_pulse (k := k) (t := 1) ⟨8000⟩ 0 (by omega) (by omega)
    (Nat.zero_add _).le le_rfl (by omega)
  -- both beats are the ones that are known to have the timbre of silence
  obtain ⟨known, spectrum, hknown, -, htimbre, -⟩ := hexists 0
  obtain ⟨known', spectrum', hknown', -, htimbre', -⟩ := hexists 1
  obtain rfl : known = beat := Except.ok.inj (hknown.symm.trans hbeat)
  obtain rfl : known' = beat' := Except.ok.inj (hknown'.symm.trans hbeat')
  obtain ⟨x, x', hx, hx', hlt⟩ := hheard 0 (by norm_num)
  rw [htimbre, timbreOf_of_width_eq_zero spectrum hwidth] at hx
  rw [htimbre', timbreOf_of_width_eq_zero spectrum' hwidth] at hx'
  obtain rfl : x = x' := Option.some.inj (hx.symm.trans hx')
  exact lt_irrefl x.real hlt

section

variable [Memory] {s : RemixSettings Float} {drawn : Float} {o : RemixOptions Float} {n : ℕ}

omit [Memory] in
/-- An accepted window has 2, 4, 8 or 16 samples, or at least 32. -/
lemma window_cases (h : s.resolve drawn = .ok o)
    (hn : value? o.analysis.windowSize = some (n : ℚ)) : n ∈ [2, 4, 8, 16] ∨ 32 ≤ n := by
  have hpasses := (RemixSettings.resolve_eq_ok.mp h).analysis.windowSize
  -- beyond a word the powers of two are not the only accepted windows, but all are long
  by_cases hword : n ≤ 2 ^ 32
  · obtain ⟨k, hk, rfl⟩ := exists_two_pow_of_window hpasses hn hword
    by_cases hshort : k < 5
    · interval_cases k <;> decide
    · exact .inr (Nat.pow_le_pow_right two_pos (not_lt.mp hshort))
  · omega

/-- The timbre of every beat is that of a spectrum half as wide as the window. -/
lemma timbre_of_accepted (h : s.resolve drawn = .ok o)
    (hn : value? o.analysis.windowSize = some (n : ℚ)) {buffer : SampleBuffer Float}
    {beats : List (Beat Float)} (hbeats : analyzeBeats buffer o.analysis = .ok beats) :
    ∀ beat ∈ beats, ∃ spectrum : Array Float, spectrum.size = n / 2 + 1
      ∧ beat.timbre = timbreOf spectrum (timbreBands n) := by
  have hpasses := (RemixSettings.resolve_eq_ok.mp h).analysis.windowSize
  have hpos : 0 < n := by
    rcases window_cases h hn with hshort | hlong
    · fin_cases hshort <;> norm_num
    · omega
  exact timbre_of_analyzeBeats (Setting.windowSize_eq_ok.mp hpasses).2.1
    (Double.whole_of_value (k := n) (by exact_mod_cast hn)) hpos hbeats

/-- With a window of 16 samples or less all beats have the same timbre. -/
theorem timbre_of_short_window (h : s.resolve drawn = .ok o)
    (hn : value? o.analysis.windowSize = some (n : ℚ)) (hshort : n ≤ 16)
    {buffer : SampleBuffer Float} {beats : List (Beat Float)}
    (hbeats : analyzeBeats buffer o.analysis = .ok beats) :
    ∀ beat ∈ beats, beat.timbre = List.replicate 12 (Analytic.log (0 + logFloor)) := by
  intro beat hbeat
  obtain ⟨spectrum, -, htimbre⟩ := timbre_of_accepted h hn hbeats beat hbeat
  rw [htimbre, timbreOf_of_width_eq_zero spectrum (width_timbreBands_of_le hshort)]
  rfl

/-- The bands of the timbre with an accepted window. The timbre of every beat is that of a spectrum
half as wide as the window, shared out among twelve bands side by side, each of which depends on its
own bins only. With more than 16 samples every band has a bin and is made higher by each of its bins
and by a louder pulse in the beat, as far as there is a transform. The accepted windows of 2, 4, 8
and 16 samples leave all bands without a bin, and all beats with the same timbre. -/
theorem timbreOf_bands (haccepted : s.resolve drawn = .ok o) :
    ∃ n : ℕ, value? o.analysis.windowSize = some (n : ℚ)
      ∧ ((timbreBands n).count = 12 ∧ (timbreBands n).SideBySide (n / 2 + 1))
      ∧ (∀ buffer beats, analyzeBeats buffer o.analysis = .ok beats →
          ∀ beat ∈ beats, ∃ spectrum : Array Float, spectrum.size = n / 2 + 1
            ∧ beat.timbre = timbreOf spectrum (timbreBands n))
      ∧ (∀ spectrum spectrum' : Array Float, spectrum'.size = spectrum.size → ∀ band < 12,
          (∀ i ∈ (timbreBands n).bins band, spectrum'[i]? = spectrum[i]?) →
            (timbreOf spectrum' (timbreBands n))[band]?
              = (timbreOf spectrum (timbreBands n))[band]?)
      ∧ (16 < n → 0 < (timbreBands n).width ∧ (timbreBands n).HearBins (n / 2 + 1)
          ∧ (n ≤ 2 ^ 29 → HearsPulses n))
      ∧ (n ≤ 16 → n ∈ [2, 4, 8, 16] ∧ (timbreBands n).width = 0
          ∧ ∀ buffer beats, analyzeBeats buffer o.analysis = .ok beats →
            ∀ beat ∈ beats, beat.timbre = List.replicate 12 (Analytic.log (0 + logFloor))) := by
  have hpasses := (RemixSettings.resolve_eq_ok.mp haccepted).analysis.windowSize
  obtain ⟨n, hn⟩ := exists_value_of_window hpasses
  have hcases := window_cases haccepted hn
  refine ⟨n, hn, ⟨rfl, sideBySide_timbreBands n⟩, fun _ _ => timbre_of_accepted haccepted hn,
    fun _ _ hsize _ hband => getElem?_timbreOf_congr hsize hband, ?_, ?_⟩
  · intro hlong
    have hleast : 32 ≤ n := by
      rcases hcases with hshort | hleast
      · fin_cases hshort <;> omega
      · exact hleast
    refine ⟨width_timbreBands_pos_iff.mpr (by omega),
      hearBins_of_sideBySide (sideBySide_timbreBands n), ?_⟩
    intro htransform
    obtain ⟨k, -, hk30, rfl⟩ := exists_stages_of_window hpasses hn htransform
    have hk : 5 ≤ k := (Nat.pow_le_pow_iff_right one_lt_two).mp (show 2 ^ 5 ≤ 2 ^ k by omega)
    exact hearsPulses_two_pow hk (by omega)
  · intro hshort
    exact ⟨hcases.resolve_right (by omega), width_timbreBands_of_le hshort,
      fun _ _ => timbre_of_short_window haccepted hn hshort⟩

end

/-- The shortest window whose bands have bins. -/
theorem timbreOf_bands_shortest : ∃ o : RemixOptions Float,
    (windowSettings 5).resolve 0 = .ok o
      ∧ value? o.analysis.windowSize = some ((32 : ℕ) : ℚ)
      ∧ (timbreBands 32).SideBySide 17
      ∧ 0 < (timbreBands 32).width
      ∧ HearsPulses 32 := by
  obtain ⟨o, ho, hv⟩ := exists_resolve_windowSettings (k := 5) (by norm_num) (by norm_num)
  obtain ⟨n, hn, ⟨-, hbands⟩, -, -, hlong, -⟩ := timbreOf_bands ho
  obtain rfl : 2 ^ 5 = n := by exact_mod_cast Option.some.inj (hv.symm.trans hn)
  obtain ⟨hwidth, -, hpulses⟩ := hlong (by norm_num)
  exact ⟨o, ho, hv, hbands, hwidth, hpulses (by norm_num)⟩

/-- A window of 16 samples is accepted, but its bands have no bins. All beats of all songs have the
same timbre, and no pulse is heard. -/
theorem not_timbreOf_bands : ∃ o : RemixOptions Float,
    (windowSettings 4).resolve 0 = .ok o
      ∧ value? o.analysis.windowSize = some ((16 : ℕ) : ℚ)
      ∧ (∀ band, ¬((timbreBands 16).bins band).Nonempty)
      ∧ (∀ buffer beats buffer' beats', analyzeBeats buffer o.analysis = .ok beats →
          analyzeBeats buffer' o.analysis = .ok beats' →
            ∀ beat ∈ beats, ∀ beat' ∈ beats', beat.timbre = beat'.timbre)
      ∧ ¬HearsPulses 16 := by
  obtain ⟨o, ho, hv⟩ := exists_resolve_windowSettings (k := 4) (by norm_num) (by norm_num)
  refine ⟨o, ho, hv, ?_, ?_, not_hearsPulses_two_pow (k := 4) (by norm_num) le_rfl⟩
  · intro band
    rw [← Finset.card_pos, (sideBySide_timbreBands 16).card_bins, width_timbreBands_pos_iff]
    norm_num
  · intro buffer beats buffer' beats' h h' beat hbeat beat' hbeat'
    rw [timbre_of_short_window ho hv (by norm_num) h beat hbeat,
      timbre_of_short_window ho hv (by norm_num) h' beat' hbeat']

end EndlessRemix
