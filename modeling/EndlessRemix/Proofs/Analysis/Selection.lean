import EndlessRemix.Proofs.Analysis.Onset
import EndlessRemix.Proofs.Number.Reals

/-!
# Which peaks become onsets

Peaks are selected greedily from the front, and the selection can be described without saying how it
is made: it starts with the first frame, its entries are more than the gap apart, and a peak that it
leaves out is too close to the entry before it. Only one list is like this, since two such lists
that agree up to some frame agree on the next one too. The peaks are those of an envelope, whose
entries are the root mean squares of consecutive frames.
-/

namespace EndlessRemix

open Exact (realAt)

/-! ## Greedy selections -/

/-- A list of frames that starts with the first one and goes on with eligible frames, each more than
the gap after the one before. What is eligible and left out is not that far after the last frame
listed before it. -/
structure Selection (eligible : ℕ → Prop) (gap : Whole) (frames : List ℕ) : Prop where
  head : frames.head? = some 0
  increasing : frames.Pairwise (· < ·)
  eligible_of_mem : ∀ i ∈ frames.tail, eligible i
  spaced : frames.IsChain fun i j => gap.isBelow (j - i) = true
  maximal : ∀ i, eligible i → i ∉ frames →
    ∃ last ∈ frames, last < i ∧ (∀ j ∈ frames, j < i → j ≤ last) ∧ gap.isBelow (i - last) = false

/-- In an increasing chain the last entry before another one is the entry next to it. -/
lemma rel_of_isChain {r : ℕ → ℕ → Prop} {frames : List ℕ} (hlt : frames.Pairwise (· < ·))
    (hchain : frames.IsChain r) {last i : ℕ} (hlast : last ∈ frames) (hi : i ∈ frames)
    (horder : last < i) (hnext : ∀ j ∈ frames, j < i → j ≤ last) : r last i := by
  induction frames with
  | nil => cases hlast
  | cons first rest ih =>
    have hrest := List.pairwise_cons.mp hlt
    have hmem : i ∈ rest := by
      rcases List.mem_cons.mp hi with rfl | hmem
      · rcases List.mem_cons.mp hlast with rfl | hmem
        · omega
        · have := hrest.1 last hmem
          omega
      · exact hmem
    by_cases hfirst : last ∈ rest
    · exact ih hrest.2 hchain.tail hfirst hmem fun j hj => hnext j (List.mem_cons_of_mem _ hj)
    · -- the last entry before is the first one, so nothing lies between the two
      obtain rfl : last = first := (List.mem_cons.mp hlast).resolve_right hfirst
      cases rest with
      | nil => cases hmem
      | cons second rest =>
        have hsecond : second ≤ i := by
          rcases List.mem_cons.mp hmem with rfl | hmem
          · exact le_rfl
          · exact ((List.pairwise_cons.mp hrest.2).1 i hmem).le
        have hgreater := hrest.1 second List.mem_cons_self
        obtain rfl : second = i := by
          by_contra hne
          have := hnext second (by simp) (by omega)
          omega
        exact (List.isChain_cons_cons.mp hchain).1

namespace Selection

variable {eligible : ℕ → Prop} {gap : Whole} {xs ys : List ℕ}

lemma zero_mem (h : Selection eligible gap xs) : 0 ∈ xs :=
  List.mem_of_head? h.head

/-- Only the first frame need not be eligible. -/
lemma eligible_of_pos (h : Selection eligible gap xs) {i : ℕ} (hi : i ∈ xs) (hpos : 0 < i) :
    eligible i := by
  apply h.eligible_of_mem
  have hhead := h.head
  cases xs with
  | nil => cases hi
  | cons first rest =>
    obtain rfl : first = 0 := by simpa using hhead
    simpa [hpos.ne'] using hi

/-- Two selections that agree on all frames before one agree on it. -/
lemma mem_of_agree (h : Selection eligible gap xs) (h' : Selection eligible gap ys) {i : ℕ}
    (hagree : ∀ j < i, j ∈ xs ↔ j ∈ ys) (hi : i ∈ xs) : i ∈ ys := by
  by_contra hout
  have hpos : 0 < i := by
    rcases Nat.eq_zero_or_pos i with rfl | hpos
    · exact absurd h'.zero_mem hout
    · exact hpos
  obtain ⟨last, hlast, horder, hnext, hnear⟩ := h'.maximal i (h.eligible_of_pos hi hpos) hout
  have hfar := rel_of_isChain h.increasing h.spaced ((hagree last horder).mpr hlast) hi horder
    fun j hj hlt => hnext j ((hagree j hlt).mp hj) hlt
  rw [hnear] at hfar
  exact Bool.false_ne_true hfar

/-- There is one selection at most. -/
theorem unique (h : Selection eligible gap xs) (h' : Selection eligible gap ys) : xs = ys := by
  have hmem : ∀ i, i ∈ xs ↔ i ∈ ys := by
    intro i
    induction i using Nat.strong_induction_on with
    | _ i ih => exact ⟨h.mem_of_agree h' ih, h'.mem_of_agree h fun j hj => (ih j hj).symm⟩
  have hnodup : ∀ {zs : List ℕ}, zs.Pairwise (· < ·) → zs.Nodup := fun hz => hz.imp Nat.ne_of_lt
  refine List.Perm.eq_of_pairwise ?_ h.increasing h'.increasing
    ((List.perm_ext_iff_of_nodup (hnodup h.increasing) (hnodup h'.increasing)).mpr hmem)
  intro i j _ _ hij hji
  omega

end Selection

/-! ## What the scan takes -/

section

variable (gap : Whole) {last : ℕ} {frames : List ℕ}

/-- Each frame that is taken is more than the gap after the one taken before. -/
lemma isChain_takeSpaced (last : ℕ) (frames : List ℕ) :
    (last :: takeSpaced gap last frames).IsChain fun i j => gap.isBelow (j - i) = true := by
  induction frames generalizing last with
  | nil => exact List.isChain_singleton last
  | cons i rest ih =>
    rw [takeSpaced]
    split_ifs with hfar
    · exact List.isChain_cons_cons.mpr ⟨hfar, ih i⟩
    · exact ih last

/-- A frame that is passed over is not that far after the last one taken before it. -/
lemma maximal_takeSpaced (hlt : (last :: frames).Pairwise (· < ·)) {i : ℕ} (hi : i ∈ frames)
    (hout : i ∉ takeSpaced gap last frames) :
    ∃ j ∈ last :: takeSpaced gap last frames, j < i
      ∧ (∀ k ∈ last :: takeSpaced gap last frames, k < i → k ≤ j)
      ∧ gap.isBelow (i - j) = false := by
  induction frames generalizing last with
  | nil => cases hi
  | cons first rest ih =>
    obtain ⟨hlast, hrest⟩ := List.pairwise_cons.mp hlt
    have hfirst : last < first := hlast first List.mem_cons_self
    rw [takeSpaced] at hout ⊢
    split_ifs at hout ⊢ with hfar
    · -- the first one is taken, and counts from now on
      have hmem : i ∈ rest := by
        rcases List.mem_cons.mp hi with rfl | hmem
        · exact absurd List.mem_cons_self hout
        · exact hmem
      obtain ⟨j, hj, horder, hnext, hnear⟩ :=
        ih hrest hmem fun hin => hout (List.mem_cons_of_mem _ hin)
      refine ⟨j, List.mem_cons_of_mem _ hj, horder, ?_, hnear⟩
      intro k hk hki
      rcases List.mem_cons.mp hk with rfl | hk
      · have hle := hnext first List.mem_cons_self ((List.pairwise_cons.mp hrest).1 i hmem)
        omega
      · exact hnext k hk hki
    · rcases List.mem_cons.mp hi with rfl | hmem
      · -- the first one is passed over because of the last one taken
        refine ⟨last, List.mem_cons_self, hfirst, ?_, Bool.eq_false_iff.mpr hfar⟩
        intro k hk hki
        rcases List.mem_cons.mp hk with rfl | hk
        · exact le_rfl
        · have := (List.pairwise_cons.mp hrest).1 k ((sublist_takeSpaced gap last rest).subset hk)
          omega
      · have hskip : (last :: rest).Pairwise (· < ·) :=
          List.pairwise_cons.mpr
            ⟨fun k hk => hlast k (List.mem_cons_of_mem _ hk), (List.pairwise_cons.mp hrest).2⟩
        exact ih hskip hmem hout

end

/-! ## The envelope -/

/-- A sum of squares from the front is their sum. -/
lemma real_sumOfSquares (xs : Array Exact) :
    (sumOfSquares xs).real = ∑ t ∈ Finset.range xs.size, realAt xs t ^ 2 := by
  refine Array.foldl_induction
    (fun count (sum : Exact) => sum.real = ∑ t ∈ Finset.range count, realAt xs t ^ 2) ?_ ?_
  · rw [Finset.sum_range_zero]
    exact Nat.cast_zero
  · intro i sum hsum
    rw [Finset.sum_range_succ, ← hsum, Exact.realAt_of_lt i.isLt, sq]
    rfl

/-- In exact arithmetic each entry of the envelope is the root of the mean of the squares of one
frame's samples: those from its first one up to the next frame, or up to the end. -/
theorem real_envelope (samples : Array Exact) {size i : ℕ} (hsize : 0 < size)
    (hi : i < (envelope samples (.int size)).size) :
    (envelope samples (.int size))[i].real
      = √((∑ t ∈ Finset.Ico (i * size) (min (i * size + size) samples.size), realAt samples t ^ 2)
          / (min (i * size + size) samples.size - i * size : ℕ)) := by
  have hsquares : (sumOfSquares (samples.extract (i * size) (i * size + size))).real
      = ∑ t ∈ Finset.Ico (i * size) (min (i * size + size) samples.size),
          realAt samples t ^ 2 := by
    rw [real_sumOfSquares, Array.size_extract, Finset.sum_Ico_eq_sum_range]
    apply Finset.sum_congr rfl
    intro t ht
    rw [Finset.mem_range] at ht
    rw [realAt, realAt, Array.getElem?_extract_of_lt (by omega), ← Array.getElem?_eq_getElem]
  have hentry : (envelope samples (.int size))[i] = _ := getElem_frameLoudness samples hsize hi
  rw [hentry, ← hsquares]
  rfl
/-! ## Peaks -/

section

variable {R : Type} [Scalar R]

/-- A frame with a neighbour on either side that is louder than both and than a threshold. -/
def Peak (loudness : Array R) (threshold : R) (i : ℕ) : Prop :=
  ∃ (_ : 1 ≤ i) (_ : i + 1 < loudness.size),
    loudness[i - 1] < loudness[i] ∧ loudness[i + 1] < loudness[i] ∧ threshold < loudness[i]

lemma isPeak_iff {loudness : Array R} {threshold : R} {i : ℕ} :
    isPeak loudness threshold i = true ↔ Peak loudness threshold i := by
  constructor
  · intro h
    obtain ⟨hpos, hlt⟩ := bounds_of_isPeak h
    obtain ⟨before, rfl⟩ : ∃ before, i = before + 1 := ⟨i - 1, by omega⟩
    rw [isPeak, Array.getElem?_eq_getElem (by omega : before < loudness.size),
      Array.getElem?_eq_getElem (by omega : before + 1 < loudness.size),
      Array.getElem?_eq_getElem (by omega : before + 2 < loudness.size)] at h
    exact ⟨hpos, hlt, of_decide_eq_true h⟩
  · rintro ⟨hpos, hlt, h⟩
    obtain ⟨before, rfl⟩ : ∃ before, i = before + 1 := ⟨i - 1, by omega⟩
    rw [isPeak, Array.getElem?_eq_getElem (by omega : before < loudness.size),
      Array.getElem?_eq_getElem (by omega : before + 1 < loudness.size),
      Array.getElem?_eq_getElem (by omega : before + 2 < loudness.size)]
    exact decide_eq_true h

lemma mem_peaks {loudness : Array R} {threshold : R} {i : ℕ} :
    i ∈ peaks loudness threshold ↔ Peak loudness threshold i := by
  rw [peaks, List.mem_filter, isPeak_iff, List.mem_range]
  constructor
  · exact And.right
  · rintro ⟨hpos, hlt, h⟩
    exact ⟨by omega, hpos, hlt, h⟩

/-- The frames at which beats begin are a selection of the peaks. -/
theorem selection_onsetFrames (loudness : Array R) (threshold : R) (gap : Whole) :
    Selection (Peak loudness threshold) gap (onsetFrames loudness threshold gap) where
  head := rfl
  increasing := pairwise_onsetFrames loudness threshold gap
  eligible_of_mem i hi := mem_peaks.mp ((sublist_takeSpaced gap 0 _).subset hi)
  spaced := isChain_takeSpaced gap 0 _
  maximal i hpeak hout := by
    have hlt : (0 :: peaks loudness threshold).Pairwise (· < ·) :=
      List.pairwise_cons.mpr
        ⟨fun j hj => (bounds_of_mem_peaks hj).1, pairwise_peaks loudness threshold⟩
    exact maximal_takeSpaced gap hlt (mem_peaks.mpr hpeak)
      fun hin => hout (List.mem_cons_of_mem _ hin)

/-! ## Onsets -/

section

variable (samples : Array R) (sampleRate : R) (o : AnalysisOptions R)

/-- The frames at which the beats of samples begin. -/
def onsetFramesOf : List ℕ :=
  onsetFrames (envelope samples (frameSize sampleRate o)) o.onsetThreshold (leastGap o)

/-- The samples of an envelope frame; none if one frame holds everything, however long. -/
def samplesPerFrame : ℕ := (frameSize sampleRate o).toNat

/-- A frame has samples, or it is the only one. -/
lemma samplesPerFrame_pos_or :
    0 < samplesPerFrame sampleRate o ∨ ∀ i ∈ onsetFramesOf samples sampleRate o, i = 0 := by
  by_cases hsize : ∃ size, frameSize sampleRate o = .int size
  · obtain ⟨size, hsize⟩ := hsize
    left
    have hpos : 1 ≤ size := one_le_atLeastOne hsize
    show 0 < (frameSize sampleRate o).toNat
    rw [hsize]
    show 0 < size.toNat
    omega
  · right
    intro i hi
    have hone := size_envelope_le_one samples fun size h => hsize ⟨size, h⟩
    rcases mem_onsetFrames hi with rfl | ⟨_, hlt⟩
    · rfl
    · omega

/-- Onsets are frames, counted in samples. -/
lemma onsets_eq :
    onsets samples sampleRate o
      = (onsetFramesOf samples sampleRate o).map (· * samplesPerFrame sampleRate o) := by
  unfold onsets
  dsimp only
  split
  · rename_i size hsize
    rw [onsetFramesOf, samplesPerFrame, hsize]
    rfl
  · rename_i hsize
    -- the only frame begins with the first sample
    have hzero : samplesPerFrame sampleRate o = 0 := by
      show (frameSize sampleRate o).toNat = 0
      cases h : frameSize sampleRate o with
      | int size => exact absurd h (hsize size)
      | _ => rfl
    have hfirst := (samplesPerFrame_pos_or samples sampleRate o).resolve_left (by omega)
    show onsetFramesOf samples sampleRate o = _
    conv_lhs => rw [← List.map_id (onsetFramesOf samples sampleRate o)]
    apply List.map_congr_left
    intro i hi
    rw [hfirst i hi]
    simp

/-- An onset is found again from its frame. -/
lemma map_div_onsets :
    (onsets samples sampleRate o).map (· / samplesPerFrame sampleRate o)
      = onsetFramesOf samples sampleRate o := by
  rw [onsets_eq, List.map_map]
  conv_rhs => rw [← List.map_id (onsetFramesOf samples sampleRate o)]
  apply List.map_congr_left
  intro i hi
  show i * samplesPerFrame sampleRate o / samplesPerFrame sampleRate o = i
  rcases samplesPerFrame_pos_or samples sampleRate o with hpos | hfirst
  · exact Nat.mul_div_cancel i hpos
  · simp [hfirst i hi]

/-- A peak begins before the last sample. -/
lemma mul_lt_size_of_mem_tail {i : ℕ} (hi : i ∈ (onsetFramesOf samples sampleRate o).tail) :
    i * samplesPerFrame sampleRate o < samples.size := by
  obtain ⟨hpos, hlt⟩ := bounds_of_mem_peaks ((sublist_takeSpaced (leastGap o) 0 _).subset hi)
  by_cases hsize : ∃ size, frameSize sampleRate o = .int size
  · obtain ⟨size, hsize⟩ := hsize
    rw [hsize, envelope, size_frameLoudness] at hlt
    have hfull := mul_lt_of_succ_lt_frameTotal hlt
    have hsplit : (i + 1) * size.toNat = i * size.toNat + size.toNat := by ring
    rw [samplesPerFrame, hsize]
    show i * size.toNat < samples.size
    omega
  · have hone := size_envelope_le_one samples fun size h => hsize ⟨size, h⟩
    omega

/-- Onsets are the greedy selection of the peaks of the envelope, counted in samples: divided by the
samples of a frame they are a selection of peaks that are more than the gap apart, and the only one.
The first is the start, and each other one begins a frame and is the position of a sample. -/
theorem onsets_selection :
    (∀ frames, Selection (Peak (envelope samples (frameSize sampleRate o)) o.onsetThreshold)
        (leastGap o) frames
      ↔ frames = (onsets samples sampleRate o).map (· / samplesPerFrame sampleRate o))
      ∧ (onsets samples sampleRate o).head? = some 0
      ∧ ∀ p ∈ (onsets samples sampleRate o).tail,
          samplesPerFrame sampleRate o ∣ p ∧ p < samples.size := by
  have hselection : Selection (Peak (envelope samples (frameSize sampleRate o)) o.onsetThreshold)
      (leastGap o) (onsetFramesOf samples sampleRate o) := selection_onsetFrames _ _ _
  refine ⟨?_, ?_, ?_⟩
  · intro frames
    rw [map_div_onsets]
    constructor
    · intro h
      exact h.unique hselection
    · rintro rfl
      exact hselection
  · rw [onsets_eq, List.head?_map, hselection.head]
    simp
  · intro p hp
    rw [onsets_eq, ← List.map_tail] at hp
    obtain ⟨i, hi, rfl⟩ := List.mem_map.mp hp
    exact ⟨Dvd.intro_left i rfl, mul_lt_size_of_mem_tail samples sampleRate o hi⟩

/-- Of nine frames of two samples the fourth, the sixth and the eighth are peaks, which have to be
more than two frames apart. The sixth is too close to the fourth; the eighth, which is not, is close
to the sixth alone. -/
example :
    onsets (R := Float) #[0, 0, 0, 0, 0, 0, 1, 1, 0, 0, 1, 0, 0, 0, 1, 1, 0, 0] 2
        ⟨1024, 1, 0.05, 2⟩
      = [0, 6, 14] := by
  decide +kernel

end

end

end EndlessRemix
