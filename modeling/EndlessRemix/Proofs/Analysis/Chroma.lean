import EndlessRemix.Analysis.Feature
import EndlessRemix.Proofs.Number.Extremes

/-!
# Chroma folds octaves

In exact arithmetic each bin of a spectrum whose frequency is not too low counts for one pitch
class, that of the note nearest to it. A frequency twice as high is twelve notes higher and falls
into the same class. So the twelve sums share out the magnitude of all these bins, and dividing them
by the greatest one keeps their ratios and makes it one.
-/

namespace EndlessRemix

open Exact (realAt)

/-! ## Pitch classes -/

/-- The pitch class of a frequency, in semitones above the nearest C below: that of the nearest
note, of which 69 is the one at 440. -/
noncomputable def noteClass (frequency : ℝ) : ℕ :=
  (round ((69 : ℕ) + (12 : ℕ) * Real.logb (2 : ℕ) (frequency / (440 : ℕ))) % 12).toNat

lemma noteClass_eq (frequency : ℝ) :
    noteClass frequency = (round (69 + 12 * Real.logb 2 (frequency / 440)) % 12).toNat := by
  rw [noteClass]
  norm_cast

lemma noteClass_lt (frequency : ℝ) : noteClass frequency < 12 := by
  rw [noteClass]
  omega

/-- An octave is twelve semitones. -/
lemma noteClass_two_mul {frequency : ℝ} (h : 0 < frequency) :
    noteClass (2 * frequency) = noteClass frequency := by
  have hnote : 69 + 12 * Real.logb 2 (2 * frequency / 440)
      = 69 + 12 * Real.logb 2 (frequency / 440) + (12 : ℕ) := by
    rw [mul_div_assoc, Real.logb_mul two_ne_zero (by positivity),
      Real.logb_self_eq_one one_lt_two]
    push_cast
    ring
  rw [noteClass_eq, hnote, round_add_natCast, noteClass_eq]
  omega

lemma nearestNote_eq (frequency : Exact) :
    nearestNote frequency = .int (round (69 + 12 * Real.logb 2 (frequency.real / 440))) := by
  have hwhole (z : ℤ) : Exact.truncate ⟨(z : ℝ)⟩ = z := by
    rw [Exact.truncate]
    split_ifs
    · exact Int.floor_intCast z
    · exact Int.ceil_intCast z
  have hnote : nearestNote frequency
      = .int (Exact.truncate ⟨(round (((69 : ℕ) : ℝ)
          + ((12 : ℕ) : ℝ) * Real.logb ((2 : ℕ) : ℝ) (frequency.real / ((440 : ℕ) : ℝ))) : ℤ)⟩) :=
    rfl
  rw [hnote, hwhole]
  push_cast
  rfl

/-- A frequency has the class of its nearest note, unless it is too low. -/
lemma pitchClass?_eq (frequency : Exact) :
    pitchClass? frequency
      = if 27.5 ≤ frequency.real then some (noteClass frequency.real) else none := by
  have hlow : frequency < lowestPitch ↔ ¬(27.5 : ℝ) ≤ frequency.real := by
    rw [not_le]
    rfl
  rw [pitchClass?, nearestNote_eq]
  by_cases h : (27.5 : ℝ) ≤ frequency.real
  · rw [if_neg (by rwa [hlow, not_not]), if_pos h, noteClass_eq]
  · rw [if_pos (hlow.mpr h), if_neg h]

/-- The frequency of a bin of a spectrum that a frame of `2 * (size - 1)` samples has. -/
lemma real_binFrequency (sampleRate : Exact) (size i : ℕ) :
    (binFrequency sampleRate size i).real = i * sampleRate.real / ((size - 1) * 2 : ℕ) := rfl

/-- The bin with twice the number has twice the frequency. -/
lemma real_binFrequency_two_mul (sampleRate : Exact) (size i : ℕ) :
    (binFrequency sampleRate size (2 * i)).real = 2 * (binFrequency sampleRate size i).real := by
  rw [real_binFrequency, real_binFrequency, Nat.cast_mul, Nat.cast_ofNat, mul_assoc, mul_div_assoc]

/-! ## The sums of the classes -/

section

variable (spectrum : Array Exact) (sampleRate : Exact)

/-- The bins above the first with a frequency that counts. -/
noncomputable def audibleBins : Finset ℕ :=
  (Finset.Ico 1 spectrum.size).filter fun i =>
    27.5 ≤ (binFrequency sampleRate spectrum.size i).real

/-- The bins of a pitch class. -/
noncomputable def binsOfClass (pitch : ℕ) : Finset ℕ :=
  (audibleBins spectrum sampleRate).filter fun i =>
    noteClass (binFrequency sampleRate spectrum.size i).real = pitch

/-- The total magnitude of the bins of a pitch class. -/
noncomputable def classTotal (pitch : ℕ) : ℝ :=
  ∑ i ∈ binsOfClass spectrum sampleRate pitch, realAt spectrum i

/-- The classes share out the bins that count. -/
lemma sum_classTotal :
    ∑ pitch ∈ Finset.range 12, classTotal spectrum sampleRate pitch
      = ∑ i ∈ audibleBins spectrum sampleRate, realAt spectrum i := by
  apply Finset.sum_fiberwise_of_maps_to
  intro i _
  exact Finset.mem_range.mpr (noteClass_lt _)

lemma pitchedBins_eq :
    pitchedBins spectrum sampleRate
      = (List.range' 1 (spectrum.size - 1)).filterMap fun i =>
          (pitchClass? (binFrequency sampleRate spectrum.size i)).map
            (·, (⟨realAt spectrum i⟩ : Exact)) := by
  -- without the first bin each place is one higher than in the list that is left
  have hbins : spectrum.toList.zipIdx.tail
      = (List.range' 1 (spectrum.size - 1)).map fun i => ((⟨realAt spectrum i⟩ : Exact), i) := by
    apply List.ext_getElem
    · simp
    · intro i hi hi'
      have hlt : i + 1 < spectrum.size := by
        rw [List.length_map, List.length_range'] at hi'
        omega
      have hplace : 1 + 1 * i = i + 1 := by omega
      simp only [List.getElem_tail, List.getElem_zipIdx, Array.getElem_toList, List.getElem_map,
        List.getElem_range', hplace, Exact.realAt_of_lt hlt, Nat.zero_add]
  rw [pitchedBins, hbins, List.filterMap_map]
  rfl

/-- What is chosen by its class and summed up counts once. -/
lemma sum_filter_filterMap (class? : ℕ → Option ℕ) (value : ℕ → ℝ) (bins : List ℕ) (pitch : ℕ) :
    ((((bins.filterMap fun i => (class? i).map (·, (⟨value i⟩ : Exact))).filter (·.1 = pitch)).map
      (·.2)).map Exact.real).sum
      = (bins.map fun i => if class? i = some pitch then value i else 0).sum := by
  induction bins with
  | nil => rfl
  | cons i bins ih =>
    rw [List.map_cons, List.sum_cons, ← ih]
    cases hclass : class? i with
    | none => simp [hclass]
    | some p =>
      by_cases hp : p = pitch
      · simp [hclass, hp]
      · simp [hclass, hp]

/-- The sums of the classes. -/
theorem real_chromaSums :
    (chromaSums spectrum sampleRate).map Exact.real
      = (List.range 12).map (classTotal spectrum sampleRate) := by
  rw [chromaSums, List.map_map]
  apply List.map_congr_left
  intro pitch _
  have hrange (f : ℕ → ℝ) : ((List.range' 1 (spectrum.size - 1)).map f).sum
      = ∑ i ∈ Finset.Ico 1 spectrum.size, f i := rfl
  have hclass (i : ℕ) : pitchClass? (binFrequency sampleRate spectrum.size i) = some pitch
      ↔ 27.5 ≤ (binFrequency sampleRate spectrum.size i).real
        ∧ noteClass (binFrequency sampleRate spectrum.size i).real = pitch := by
    rw [pitchClass?_eq]
    split_ifs with h <;> simp [h]
  rw [Function.comp_apply, Exact.real_sum, pitchedBins_eq, sum_filter_filterMap, hrange,
    ← Finset.sum_filter, classTotal, binsOfClass, audibleBins, Finset.filter_filter]
  simp only [hclass]

lemma length_chromaSums : (chromaSums spectrum sampleRate).length = 12 := by
  rw [chromaSums, List.length_map, List.length_range]
  rfl

end

/-! ## Division by the greatest sum -/

section

variable {xs : List Exact}

lemma normalizeByGreatest_eq (hne : xs ≠ []) : ∃ greatest, GreatestOf xs greatest
    ∧ normalizeByGreatest xs = if 0 < greatest then xs.map (· / greatest) else xs := by
  cases xs with
  | nil => exact absurd rfl hne
  | cons x xs => exact ⟨_, greatestOf_foldl_max fun z _ => le_refl z.real, rfl⟩

lemma length_normalizeByGreatest (xs : List Exact) :
    (normalizeByGreatest xs).length = xs.length := by
  by_cases hne : xs = []
  · rw [hne]
    rfl
  · obtain ⟨greatest, -, heq⟩ := normalizeByGreatest_eq hne
    rw [heq]
    split_ifs
    · exact List.length_map _
    · rfl

/-- If a number is above zero, the greatest becomes one and all are divided alike. -/
lemma normalizeByGreatest_of_pos (h : ∃ x ∈ xs, 0 < x.real) :
    ∃ scale : ℝ, 0 < scale ∧ GreatestOf (normalizeByGreatest xs) 1
      ∧ xs.map Exact.real = (normalizeByGreatest xs).map fun y => scale * y.real := by
  obtain ⟨x, hx, hpos⟩ := h
  obtain ⟨greatest, ⟨hmem, hbound⟩, heq⟩ := normalizeByGreatest_eq (List.ne_nil_of_mem hx)
  have hscale : 0 < greatest.real := hpos.trans_le (hbound x hx)
  have hpositive : (0 : Exact) < greatest := by
    show ((0 : ℕ) : ℝ) < greatest.real
    rwa [Nat.cast_zero]
  rw [heq, if_pos hpositive]
  refine ⟨greatest.real, hscale, ⟨?_, ?_⟩, ?_⟩
  · have hone : greatest / greatest = 1 := by
      apply Exact.ext
      show greatest.real / greatest.real = ((1 : ℕ) : ℝ)
      rw [div_self hscale.ne', Nat.cast_one]
    exact List.mem_map.mpr ⟨greatest, hmem, hone⟩
  · intro y hy
    obtain ⟨x, hx, rfl⟩ := List.mem_map.mp hy
    show x.real / greatest.real ≤ ((1 : ℕ) : ℝ)
    rw [Nat.cast_one]
    exact (div_le_one hscale).mpr (hbound x hx)
  · rw [List.map_map]
    apply List.map_congr_left
    intro x _
    exact (mul_div_cancel₀ x.real hscale.ne').symm

/-- Numbers of which the greatest is one, in the ratios of some sums, are these sums divided by the
greatest of them. -/
lemma real_eq_div_of_ratio {sums : List ℝ} {scale greatest : ℝ}
    (hone : GreatestOf xs 1) (hscale : 0 < scale)
    (hratio : sums = xs.map fun x => scale * x.real) (hmem : greatest ∈ sums)
    (hgreatest : ∀ sum ∈ sums, sum ≤ greatest) : xs.map Exact.real = sums.map (· / greatest) := by
  obtain ⟨hone, hbound⟩ := hone
  obtain rfl : scale = greatest := by
    apply le_antisymm
    · apply hgreatest
      rw [hratio]
      refine List.mem_map.mpr ⟨1, hone, ?_⟩
      show scale * ((1 : ℕ) : ℝ) = scale
      rw [Nat.cast_one, mul_one]
    · obtain ⟨x, hx, rfl⟩ := List.mem_map.mp (hratio ▸ hmem)
      have hle : x.real ≤ ((1 : ℕ) : ℝ) := hbound x hx
      rw [Nat.cast_one] at hle
      exact mul_le_of_le_one_right hscale.le hle
  rw [hratio, List.map_map]
  apply List.map_congr_left
  intro x _
  exact (mul_div_cancel_left₀ x.real hscale.ne').symm

/-- If no number is above zero, they stay as they are. -/
lemma normalizeByGreatest_of_zero (h : ∀ x ∈ xs, x.real = 0) : normalizeByGreatest xs = xs := by
  by_cases hne : xs = []
  · rw [hne]
    rfl
  · obtain ⟨greatest, ⟨hmem, -⟩, heq⟩ := normalizeByGreatest_eq hne
    have hzero : ¬(0 : Exact) < greatest := by
      show ¬((0 : ℕ) : ℝ) < greatest.real
      rw [h greatest hmem, Nat.cast_zero]
      exact lt_irrefl 0
    rw [heq, if_neg hzero]

end

/-! ## Chroma -/

section

variable {spectrum : Array Exact} (sampleRate : Exact)

lemma mem_chromaSums {x : Exact} :
    x ∈ chromaSums spectrum sampleRate
      ↔ ∃ pitch < 12, x.real = classTotal spectrum sampleRate pitch := by
  have hmem : x ∈ chromaSums spectrum sampleRate
      ↔ x.real ∈ (chromaSums spectrum sampleRate).map Exact.real :=
    (List.mem_map_of_injective fun _ _ => Exact.ext).symm
  rw [hmem, real_chromaSums, List.mem_map]
  simp only [List.mem_range, eq_comm]

lemma chromaSums_nonneg (hspectrum : ∀ x ∈ spectrum, 0 ≤ x.real) :
    ∀ x ∈ chromaSums spectrum sampleRate, 0 ≤ x.real := by
  intro x hx
  obtain ⟨pitch, -, htotal⟩ := (mem_chromaSums sampleRate).mp hx
  rw [htotal]
  exact Finset.sum_nonneg fun i _ => Exact.realAt_nonneg hspectrum i

/-- A bin above zero that counts raises the sum of its class. -/
lemma exists_chromaSum_pos (hspectrum : ∀ x ∈ spectrum, 0 ≤ x.real)
    (h : ∃ i ∈ audibleBins spectrum sampleRate, 0 < realAt spectrum i) :
    ∃ x ∈ chromaSums spectrum sampleRate, 0 < x.real := by
  obtain ⟨i, hi, hpos⟩ := h
  have hclass : i ∈ binsOfClass spectrum sampleRate
      (noteClass (binFrequency sampleRate spectrum.size i).real) :=
    Finset.mem_filter.mpr ⟨hi, rfl⟩
  have hle : realAt spectrum i ≤ classTotal spectrum sampleRate
      (noteClass (binFrequency sampleRate spectrum.size i).real) :=
    Finset.single_le_sum (fun j _ => Exact.realAt_nonneg hspectrum j) hclass
  exact ⟨⟨_⟩, (mem_chromaSums sampleRate).mpr ⟨_, noteClass_lt _, rfl⟩, hpos.trans_le hle⟩

/-- Without such a bin all sums are zero. -/
lemma chromaSums_eq_zero (hspectrum : ∀ x ∈ spectrum, 0 ≤ x.real)
    (h : ¬∃ i ∈ audibleBins spectrum sampleRate, 0 < realAt spectrum i) :
    ∀ x ∈ chromaSums spectrum sampleRate, x.real = 0 := by
  intro x hx
  obtain ⟨pitch, -, htotal⟩ := (mem_chromaSums sampleRate).mp hx
  rw [htotal]
  apply Finset.sum_eq_zero
  intro i hi
  have hnot : ¬0 < realAt spectrum i := fun hpos => h ⟨i, Finset.mem_of_mem_filter i hi, hpos⟩
  exact le_antisymm (not_lt.mp hnot) (Exact.realAt_nonneg hspectrum i)

lemma chromaOf_of_pos (hspectrum : ∀ x ∈ spectrum, 0 ≤ x.real)
    (h : ∃ i ∈ audibleBins spectrum sampleRate, 0 < realAt spectrum i) :
    GreatestOf (chromaOf spectrum sampleRate) 1
      ∧ ∃ scale : ℝ, 0 < scale ∧ (chromaSums spectrum sampleRate).map Exact.real
          = (chromaOf spectrum sampleRate).map fun x => scale * x.real := by
  obtain ⟨scale, hscale, hgreatest, hratio⟩ :=
    normalizeByGreatest_of_pos (exists_chromaSum_pos sampleRate hspectrum h)
  exact ⟨hgreatest, scale, hscale, hratio⟩

lemma length_chromaOf : (chromaOf spectrum sampleRate).length = 12 := by
  rw [chromaOf, length_normalizeByGreatest, length_chromaSums]

lemma chromaOf_of_zero (hspectrum : ∀ x ∈ spectrum, 0 ≤ x.real)
    (h : ¬∃ i ∈ audibleBins spectrum sampleRate, 0 < realAt spectrum i) :
    chromaOf spectrum sampleRate = List.replicate 12 0 := by
  have hzero := chromaSums_eq_zero sampleRate hspectrum h
  refine List.eq_replicate_iff.mpr ⟨length_chromaOf sampleRate, ?_⟩
  intro x hx
  rw [chromaOf, normalizeByGreatest_of_zero hzero] at hx
  exact Exact.ext ((hzero x hx).trans Nat.cast_zero.symm)

lemma chromaOf_mem_unit (hspectrum : ∀ x ∈ spectrum, 0 ≤ x.real) :
    ∀ x ∈ chromaOf spectrum sampleRate, 0 ≤ x.real ∧ x.real ≤ 1 := by
  intro x hx
  by_cases h : ∃ i ∈ audibleBins spectrum sampleRate, 0 < realAt spectrum i
  · obtain ⟨⟨-, hbound⟩, scale, hscale, hratio⟩ := chromaOf_of_pos sampleRate hspectrum h
    have hsum : scale * x.real ∈ (chromaSums spectrum sampleRate).map Exact.real := by
      rw [hratio]
      exact List.mem_map_of_mem hx
    -- the scale is above zero, so a number has the sign of its sum
    obtain ⟨y, hy, heq⟩ := List.mem_map.mp hsum
    have hnonneg : 0 ≤ scale * x.real := heq ▸ chromaSums_nonneg sampleRate hspectrum y hy
    have hone : x.real ≤ ((1 : ℕ) : ℝ) := hbound x hx
    exact ⟨nonneg_of_mul_nonneg_right hnonneg hscale, by rwa [Nat.cast_one] at hone⟩
  · rw [chromaOf_of_zero sampleRate hspectrum h] at hx
    rw [List.eq_of_mem_replicate hx]
    show 0 ≤ ((0 : ℕ) : ℝ) ∧ ((0 : ℕ) : ℝ) ≤ 1
    norm_num

/-- In exact arithmetic the chroma of a spectrum are twelve numbers from zero to one. The sums
before are those of the pitch classes, and together they have the magnitude of all bins that count.
If one of these bins is above zero, the greatest number is one and the ratios are those of the sums;
else all numbers are zero. A bin counts if it is not too low, for one class, and for the same one an
octave higher. Here bin `i` of a spectrum with `n` bins has the frequency
`i * sampleRate / (2 * (n - 1))` (`real_binFrequency`), and the lowest that counts is 27.5. -/
theorem chromaOf_folds_octaves (hspectrum : ∀ x ∈ spectrum, 0 ≤ x.real) :
    ((chromaOf spectrum sampleRate).length = 12
      ∧ ∀ x ∈ chromaOf spectrum sampleRate, 0 ≤ x.real ∧ x.real ≤ 1)
    ∧ (chromaSums spectrum sampleRate).map Exact.real
        = (List.range 12).map (classTotal spectrum sampleRate)
    ∧ ((chromaSums spectrum sampleRate).map Exact.real).sum
        = ∑ i ∈ audibleBins spectrum sampleRate, realAt spectrum i
    ∧ ((∃ i ∈ audibleBins spectrum sampleRate, 0 < realAt spectrum i) →
        GreatestOf (chromaOf spectrum sampleRate) 1
          ∧ ∃ scale : ℝ, 0 < scale ∧ (chromaSums spectrum sampleRate).map Exact.real
              = (chromaOf spectrum sampleRate).map fun x => scale * x.real)
    ∧ ((¬∃ i ∈ audibleBins spectrum sampleRate, 0 < realAt spectrum i) →
        chromaOf spectrum sampleRate = List.replicate 12 0)
    ∧ ∀ i, ((binFrequency sampleRate spectrum.size i).real < 27.5 →
          pitchClass? (binFrequency sampleRate spectrum.size i) = none)
        ∧ (27.5 ≤ (binFrequency sampleRate spectrum.size i).real →
          ∃ pitch < 12, noteClass (binFrequency sampleRate spectrum.size i).real = pitch
            ∧ pitchClass? (binFrequency sampleRate spectrum.size i) = some pitch
            ∧ (27.5 ≤ (binFrequency sampleRate spectrum.size (2 * i)).real →
                pitchClass? (binFrequency sampleRate spectrum.size (2 * i)) = some pitch)) := by
  refine ⟨⟨length_chromaOf sampleRate, chromaOf_mem_unit sampleRate hspectrum⟩,
    real_chromaSums spectrum sampleRate, ?_, chromaOf_of_pos sampleRate hspectrum,
    chromaOf_of_zero sampleRate hspectrum, ?_⟩
  · have htotal : ((List.range 12).map (classTotal spectrum sampleRate)).sum
        = ∑ pitch ∈ Finset.range 12, classTotal spectrum sampleRate pitch := rfl
    rw [real_chromaSums, htotal, sum_classTotal]
  · intro i
    refine ⟨fun hlow => by rw [pitchClass?_eq, if_neg (not_le.mpr hlow)], ?_⟩
    intro hcounts
    refine ⟨_, noteClass_lt _, rfl, by rw [pitchClass?_eq, if_pos hcounts], ?_⟩
    intro hoctave
    have hpos : 0 < (binFrequency sampleRate spectrum.size i).real := by linarith
    rw [pitchClass?_eq, if_pos hoctave, real_binFrequency_two_mul, noteClass_two_mul hpos]

end

/-! ## A fifth and an octave -/

/-- Magnitudes at zero, below the lowest note, at the note, a fifth higher and an octave higher. -/
def lowFifth : Array Exact := #[⟨(5 : ℕ)⟩, ⟨(7 : ℕ)⟩, ⟨1⟩, ⟨(2 : ℕ)⟩, ⟨(3 : ℕ)⟩]

/-- A sample rate that sets the bins 13.75 apart. -/
def lowFifthRate : Exact := ⟨(110 : ℕ)⟩

lemma real_binFrequency_lowFifth (i : ℕ) :
    (binFrequency lowFifthRate lowFifth.size i).real = 13.75 * i := by
  have hcount : (lowFifth.size - 1) * 2 = 8 := rfl
  rw [real_binFrequency, hcount, lowFifthRate]
  push_cast
  ring

lemma audibleBins_lowFifth : audibleBins lowFifth lowFifthRate = {2, 3, 4} := by
  ext i
  have hsize : lowFifth.size = 5 := rfl
  have hbound : 27.5 ≤ 13.75 * (i : ℝ) ↔ 2 ≤ i := by
    rw [← Nat.cast_le (α := ℝ)]
    push_cast
    constructor <;> intro h <;> linarith
  rw [audibleBins, Finset.mem_filter, Finset.mem_Ico, real_binFrequency_lowFifth, hbound, hsize]
  simp only [Finset.mem_insert, Finset.mem_singleton]
  omega

/-- The concert pitch is an A, and so are the notes some octaves lower. -/
lemma noteClass_27_5 : noteClass 27.5 = 9 := by
  have hconcert : noteClass 440 = 9 := by
    rw [noteClass_eq, div_self (by norm_num), Real.logb_one, mul_zero, add_zero, round_ofNat]
    rfl
  have hoctaves : (440 : ℝ) = 2 * (2 * (2 * (2 * 27.5))) := by norm_num
  rw [hoctaves, noteClass_two_mul (by norm_num), noteClass_two_mul (by norm_num),
    noteClass_two_mul (by norm_num), noteClass_two_mul (by norm_num)] at hconcert
  exact hconcert

/-- A fifth above the lowest A is an E: three lies between `2 ^ (14 / 9)` and `2 ^ (13 / 8)`. -/
lemma noteClass_41_25 : noteClass 41.25 = 4 := by
  have hlow := Real.logb_le_logb_of_le one_lt_two (by norm_num) (by norm_num : (2 : ℝ) ^ 14 ≤ 3 ^ 9)
  have hhigh := Real.logb_lt_logb one_lt_two (by norm_num) (by norm_num : (3 : ℝ) ^ 8 < 2 ^ 13)
  simp only [Real.logb_pow, Real.logb_self_eq_one one_lt_two] at hlow hhigh
  have hratio : (41.25 / 440 : ℝ) = 3 / 2 ^ 5 := by norm_num
  have hnote : round (69 + 12 * Real.logb 2 (41.25 / 440)) = 28 := by
    rw [hratio, Real.logb_div (by norm_num) (by norm_num), Real.logb_pow,
      Real.logb_self_eq_one one_lt_two, round_eq_iff]
    constructor <;> push_cast at hlow hhigh ⊢ <;> linarith
  rw [noteClass_eq, hnote]
  rfl

lemma noteClass_lowFifth :
    noteClass (binFrequency lowFifthRate lowFifth.size 2).real = 9
      ∧ noteClass (binFrequency lowFifthRate lowFifth.size 3).real = 4
      ∧ noteClass (binFrequency lowFifthRate lowFifth.size 4).real = 9 := by
  have hlow : (13.75 : ℝ) * (2 : ℕ) = 27.5 := by norm_num
  have hfifth : (13.75 : ℝ) * (3 : ℕ) = 41.25 := by norm_num
  have hoctave : (13.75 : ℝ) * (4 : ℕ) = 2 * 27.5 := by norm_num
  simp only [real_binFrequency_lowFifth, hlow, hfifth, hoctave]
  exact ⟨noteClass_27_5, noteClass_41_25, (noteClass_two_mul (by norm_num)).trans noteClass_27_5⟩

lemma classTotal_lowFifth (pitch : ℕ) :
    classTotal lowFifth lowFifthRate pitch
      = if pitch = 9 then 4 else if pitch = 4 then 2 else 0 := by
  obtain ⟨hlow, hfifth, hoctave⟩ := noteClass_lowFifth
  rw [classTotal, binsOfClass, audibleBins_lowFifth, Finset.sum_filter,
    Finset.sum_insert (by decide), Finset.sum_pair (by decide), hlow, hfifth, hoctave]
  show ((if 9 = pitch then (1 : ℝ) else 0) + ((if 4 = pitch then 2 else 0)
    + if 9 = pitch then 3 else 0)) = _
  split_ifs <;> first | omega | norm_num

/-- The first of five bins is left out as too low. The second note and its octave are both an A, so
their class is the strongest; the fifth between them is an E and half as strong. What is at zero and
what is below the lowest note do not count. -/
theorem chromaOf_folds_octaves_lowFifth :
    pitchClass? (binFrequency lowFifthRate lowFifth.size 1) = none
      ∧ pitchClass? (binFrequency lowFifthRate lowFifth.size 2) = some 9
      ∧ pitchClass? (binFrequency lowFifthRate lowFifth.size (2 * 2)) = some 9
      ∧ pitchClass? (binFrequency lowFifthRate lowFifth.size 3) = some 4
      ∧ ((chromaSums lowFifth lowFifthRate).map Exact.real).sum = 6
      ∧ (chromaOf lowFifth lowFifthRate).map Exact.real
        = [0, 0, 0, 0, 1 / 2, 0, 0, 0, 0, 1, 0, 0] := by
  have hspectrum : ∀ x ∈ lowFifth, 0 ≤ x.real := by
    intro x hx
    simp only [lowFifth, List.mem_toArray, List.mem_cons, List.not_mem_nil, or_false] at hx
    rcases hx with rfl | rfl | rfl | rfl | rfl <;> norm_num
  obtain ⟨-, hsums, htotal, hgreatest, -, hclass⟩ := chromaOf_folds_octaves lowFifthRate hspectrum
  have hfrequency := real_binFrequency_lowFifth
  have hlow := (hclass 1).1 (by rw [hfrequency]; norm_num)
  obtain ⟨pitch, -, hnote, hfirst, hoctave⟩ := (hclass 2).2 (by rw [hfrequency]; norm_num)
  obtain ⟨fifth, -, hnote', hfifth, -⟩ := (hclass 3).2 (by rw [hfrequency]; norm_num)
  obtain rfl : 9 = pitch := noteClass_lowFifth.1.symm.trans hnote
  obtain rfl : 4 = fifth := noteClass_lowFifth.2.1.symm.trans hnote'
  have hsix : ∑ i ∈ audibleBins lowFifth lowFifthRate, realAt lowFifth i = 6 := by
    rw [audibleBins_lowFifth, Finset.sum_insert (by decide), Finset.sum_pair (by decide)]
    show (1 : ℝ) + (2 + 3) = 6
    norm_num
  have hlist : (chromaSums lowFifth lowFifthRate).map Exact.real
      = [0, 0, 0, 0, 2, 0, 0, 0, 0, 4, 0, 0] := by
    rw [hsums]
    simp [classTotal_lowFifth, List.range_succ]
  obtain ⟨hone, scale, hscale, hratio⟩ :=
    hgreatest ⟨2, by rw [audibleBins_lowFifth]; decide, one_pos⟩
  rw [hlist] at hratio
  refine ⟨hlow, hfirst, hoctave (by rw [hfrequency]; norm_num), hfifth, htotal.trans hsix, ?_⟩
  rw [real_eq_div_of_ratio hone hscale hratio (by simp : (4 : ℝ) ∈ _) (by norm_num)]
  norm_num

end EndlessRemix
