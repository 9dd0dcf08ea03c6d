import EndlessRemix.Proofs.Analysis.Beats
import EndlessRemix.Proofs.Analysis.BitReversal
import EndlessRemix.Proofs.Options.Ranges

/-!
# Windows that can be analyzed

Every window that the options accept passes the check of the transform. Up to `2 ^ 29` samples the
loops of the transform end: the carry of the bit-reversed order runs out of bits, and the word that
counts the stages passes the size. From `2 ^ 30` on that word falls from `2 ^ 30` to the lowest
number of its range and then to zero, and never passes the size. If the memory has no room for a
list of that size, there is not even a window to multiply with.
-/

namespace EndlessRemix

open Double (value?)

/-! ## The word that counts the stages -/

/-- A word after it was doubled some times. -/
def doubled (length : Int32) : ℕ → Int32
  | 0 => length
  | m + 1 => doubled (length <<< 1) m

@[simp] lemma doubled_zero (m : ℕ) : doubled 0 m = 0 := by
  induction m with
  | zero => rfl
  | succ m ih => exact ih

/-- The word that counts the stages never passes `2 ^ 30`: once it is doubled beyond its range, it
is zero. -/
lemma doubled_two_le (m : ℕ) : (doubled 2 m).toInt ≤ 2 ^ 30 := by
  by_cases hm : m < 31
  · revert m
    decide
  · obtain ⟨k, rfl⟩ := Nat.exists_eq_add_of_le' (not_lt.mp hm)
    have hzero : doubled 2 (k + 31) = doubled 0 k := rfl
    rw [hzero, doubled_zero]
    decide

/-- Stages have no end if their word never passes the size. -/
lemma stageLengthsFrom_eq_none {size : ℕ} {length : Int32}
    (h : ∀ m, (doubled length m).toInt ≤ size) (fuel : ℕ) :
    stageLengthsFrom size fuel length = none := by
  induction fuel generalizing length with
  | zero => rfl
  | succ fuel ih =>
    have hfirst : length.toInt ≤ size := h 0
    rw [stageLengthsFrom, if_neg (not_lt.mpr hfirst)]
    split_ifs
    · rfl
    · rw [ih fun m => h (m + 1), Option.map_none]

/-! ## Accepted windows -/

section

variable {s : Setting Float} {v : Float} {n : ℕ}

/-- A window that the options accept is a natural number. -/
lemma exists_value_of_window (h : s.windowSize = .ok v) : ∃ n : ℕ, value? v = some (n : ℚ) := by
  obtain ⟨-, hwhole, hleast, -⟩ := Setting.windowSize_eq_ok.mp h
  obtain ⟨n, hn, -⟩ := (whole_and_not_lt_iff (show 2 < 2 ^ 53 by norm_num)).mp ⟨hwhole, hleast⟩
  exact ⟨n, hn⟩

/-- A window that the options accept passes the check of the transform. -/
lemma isTransformSize_of_window (h : s.windowSize = .ok v) (hv : value? v = some (n : ℚ))
    (hn : n < 2 ^ 53) : isTransformSize n = true := by
  obtain ⟨-, hwhole, hleast, hbits⟩ := Setting.windowSize_eq_ok.mp h
  obtain ⟨n', hn', h2⟩ := (whole_and_not_lt_iff (show 2 < 2 ^ 53 by norm_num)).mp ⟨hwhole, hleast⟩
  obtain rfl : n = n' := by exact_mod_cast Option.some.inj (hv.symm.trans hn')
  have hwords := (sharesNoBit_iff_and hv (by omega) hn).mp hbits
  rw [isTransformSize, Bool.and_eq_true, decide_eq_true_eq, beq_iff_eq]
  exact ⟨h2, hwords⟩

/-- A window up to `2 ^ 32` is a power of two. -/
lemma exists_two_pow_of_window (h : s.windowSize = .ok v) (hv : value? v = some (n : ℚ))
    (hn : n ≤ 2 ^ 32) : ∃ k, 1 ≤ k ∧ n = 2 ^ k := by
  obtain ⟨-, ⟨k, hk, hpow⟩ | ⟨n', hn', hlarge, -, -⟩⟩ := Setting.windowSize_iff.mp h
  · exact ⟨k, hk, by exact_mod_cast Option.some.inj (hv.symm.trans hpow)⟩
  · obtain rfl : n = n' := by exact_mod_cast Option.some.inj (hv.symm.trans hn')
    omega

/-- A window up to `2 ^ 29` is as long as a transform of less than 30 stages. -/
lemma exists_stages_of_window (h : s.windowSize = .ok v) (hv : value? v = some (n : ℚ))
    (hn : n ≤ 2 ^ 29) : ∃ k, 1 ≤ k ∧ k < 30 ∧ n = 2 ^ k := by
  obtain ⟨k, hk, rfl⟩ := exists_two_pow_of_window h hv (by omega)
  exact ⟨k, hk, (Nat.pow_lt_pow_iff_right one_lt_two).mp (by omega), rfl⟩

/-- The next window after `2 ^ 29` is `2 ^ 30`. -/
lemma two_pow_le_of_window (h : s.windowSize = .ok v) (hv : value? v = some (n : ℚ))
    (hn : 2 ^ 29 < n) : 2 ^ 30 ≤ n := by
  by_contra hless
  obtain ⟨k, -, rfl⟩ := exists_two_pow_of_window h hv (by omega)
  have hlow : 29 < k := (Nat.pow_lt_pow_iff_right one_lt_two).mp hn
  have hhigh : k < 30 := (Nat.pow_lt_pow_iff_right one_lt_two).mp (not_le.mp hless)
  omega

end

/-- The stages of a transform have no end from `2 ^ 30` values on. -/
lemma magnitudeSpectrum_endless {frame : Array Float} (hpass : isTransformSize frame.size = true)
    (hlarge : 2 ^ 30 ≤ frame.size) :
    magnitudeSpectrum frame = .error (.endless frame.size) := by
  have hstages : stageLengths? frame.size = none := by
    apply stageLengthsFrom_eq_none
    intro m
    have hword := doubled_two_le m
    omega
  unfold magnitudeSpectrum
  dsimp only
  rw [if_pos hpass, hstages]

/-- Every carry of the bit-reversed order of this many values ends within 30 turns. -/
def CarriesEnd (size : ℕ) : Prop :=
  ∀ reversed < size, addReversedWord 30 (Int32.ofNat size >>> 1) (Int32.ofNat reversed)
    = some (Int32.ofNat (nextReversed size reversed))

lemma carriesEnd_of_le {size : ℕ} (hsize : size ≤ 2 ^ 29) : CarriesEnd size := by
  intro reversed hreversed
  rw [ofNat_shiftRight_one (by omega)]
  exact addReversedWord_eq (by omega) (by omega) (by omega)

/-- The word of the stages passes this size. -/
def StagesEnd (size : ℕ) : Prop := ∃ m, size < (doubled 2 m).toInt

lemma stagesEnd_iff {size : ℕ} : StagesEnd size ↔ size < 2 ^ 30 := by
  constructor
  · rintro ⟨m, hm⟩
    have hword := doubled_two_le m
    omega
  · intro hsize
    have hword : (doubled 2 29).toInt = 2 ^ 30 := by decide
    exact ⟨29, by omega⟩

/-- A window that the memory has no room for leaves nothing to analyze. -/
lemma analyzeBeats_impossible [Memory] {s : Setting Float} {n : ℕ} {buffer : SampleBuffer Float}
    {o : AnalysisOptions Float} (h : s.windowSize = .ok o.windowSize)
    (hwindow : value? o.windowSize = some (n : ℚ)) (hlarge : Memory.longest < n)
    (hchannels : buffer.channels ≠ []) : analyzeBeats buffer o = .error .impossibleWindow := by
  have hlength := frameLength?_of_whole (Setting.windowSize_eq_ok.mp h).2.1
    (Double.whole_of_value (k := n) (by exact_mod_cast hwindow))
  rw [if_neg (not_le.mpr hlarge)] at hlength
  rw [analyzeBeats_eq hchannels, hlength]

/-- An accepted window is a natural number, and every frame as long passes the check of the
transform. With a window of up to `2 ^ 29` samples its carries and its stages end, there is a
spectrum, and every buffer can be analyzed if the memory has room for the window. Beyond, the stages
have no end; and with a window that the memory has no room for, no buffer can be analyzed, however
short it is. Lists are shorter than `2 ^ 53`. -/
theorem magnitudeSpectrum_window [Memory] {drawn : Float} {s : RemixSettings Float}
    {o : RemixOptions Float} (haccepted : s.resolve drawn = .ok o) :
    ∃ n : ℕ, value? o.analysis.windowSize = some (n : ℚ)
      ∧ (∀ frame : Array Float, frame.size = n → n < 2 ^ 53 →
        isTransformSize n = true
          ∧ (n ≤ 2 ^ 29 →
              CarriesEnd n ∧ StagesEnd n ∧ ∃ spectrum, magnitudeSpectrum frame = .ok spectrum)
          ∧ (2 ^ 29 < n → ¬StagesEnd n ∧ magnitudeSpectrum frame = .error (.endless n)))
      ∧ ∀ buffer : SampleBuffer Float, buffer.channels ≠ [] →
        (n ≤ 2 ^ 29 → n ≤ Memory.longest → ∃ beats, analyzeBeats buffer o.analysis = .ok beats)
          ∧ (Memory.longest < n → analyzeBeats buffer o.analysis = .error .impossibleWindow) := by
  have hpasses := (RemixSettings.resolve_eq_ok.mp haccepted).analysis.windowSize
  obtain ⟨n, hwindow⟩ := exists_value_of_window hpasses
  refine ⟨n, hwindow, ?_, ?_⟩
  · rintro frame rfl hmemory
    have hsize := isTransformSize_of_window hpasses hwindow hmemory
    refine ⟨hsize, ?_, ?_⟩
    · intro hsmall
      obtain ⟨k, hk, hk30, hpow⟩ := exists_stages_of_window hpasses hwindow hsmall
      exact ⟨carriesEnd_of_le hsmall, stagesEnd_iff.mpr (by omega),
        exists_magnitudeSpectrum hpow hk hk30⟩
    · intro hlarge
      have hendless := two_pow_le_of_window hpasses hwindow hlarge
      exact ⟨mt stagesEnd_iff.mp (not_lt.mpr hendless), magnitudeSpectrum_endless hsize hendless⟩
  · intro buffer hchannels
    constructor
    · intro hsmall hroom
      obtain ⟨k, hk, hk30, rfl⟩ := exists_stages_of_window hpasses hwindow hsmall
      have hlength := frameLength?_of_whole (Setting.windowSize_eq_ok.mp hpasses).2.1
        (Double.whole_of_value (k := (2 ^ k : ℕ)) (by exact_mod_cast hwindow))
      rw [if_pos hroom] at hlength
      exact exists_analyzeBeats hchannels hk hk30 hlength
    · intro hlarge
      exact analyzeBeats_impossible hpasses hwindow hlarge hchannels

/-! ## The boundary -/

/-- A silent frame. -/
def silentFrame (size : ℕ) : Array Float := Array.replicate size 0

@[simp] lemma size_silentFrame (size : ℕ) : (silentFrame size).size = size := Array.size_replicate

/-- Four silent frames at 8000 frames a second. -/
def fourSilent : SampleBuffer Float := ⟨8000, [Array.replicate 4 Sample.zero]⟩

/-- Settings whose window is this power of two. -/
def windowSettings (k : ℕ) : RemixSettings Float := .ofWindow (Scalar.ofNat (2 ^ k))

/-- A power of two is accepted as a window. -/
lemma exists_resolve_windowSettings {k : ℕ} (hk : 1 ≤ k) (hlt : 2 ^ k < 2 ^ 53) :
    ∃ o, (windowSettings k).resolve 0 = .ok o
      ∧ value? o.analysis.windowSize = some ((2 ^ k : ℕ) : ℚ) := by
  have hvalue : value? (Scalar.ofNat (2 ^ k)) = some ((2 ^ k : ℕ) : ℚ) := Double.value?_ofNat hlt
  obtain ⟨o, ho, hv⟩ := RemixSettings.exists_resolve_ofWindow (.inl ⟨k, hk, hvalue⟩)
  exact ⟨o, ho, hv ▸ hvalue⟩

/-- The longest window with a spectrum. -/
theorem magnitudeSpectrum_window_longest : ∃ o : RemixOptions Float,
    (windowSettings 29).resolve 0 = .ok o
      ∧ value? o.analysis.windowSize = some ((2 ^ 29 : ℕ) : ℚ)
      ∧ (∃ spectrum, magnitudeSpectrum (silentFrame (2 ^ 29)) = .ok spectrum)
      ∧ ∃ beats, analyzeBeats fourSilent o.analysis = .ok beats := by
  obtain ⟨o, ho, hv⟩ := exists_resolve_windowSettings (k := 29) (by norm_num) (by norm_num)
  obtain ⟨n, hn, hframes, hbuffers⟩ := magnitudeSpectrum_window ho
  obtain rfl : 2 ^ 29 = n := by exact_mod_cast Option.some.inj (hv.symm.trans hn)
  obtain ⟨-, hloops, -⟩ := hframes _ (size_silentFrame _) (by norm_num)
  obtain ⟨hbeats, -⟩ := hbuffers fourSilent (List.cons_ne_nil _ _)
  exact ⟨o, ho, hv, (hloops le_rfl).2.2, hbeats le_rfl (by decide)⟩

/-- A window of `2 ^ 30` samples is accepted, but the stages of its frames have no end. A window of
`2 ^ 52` samples is accepted, but no memory has room for it, so nothing can be analyzed with it. -/
theorem not_magnitudeSpectrum_window :
    (∃ o : RemixOptions Float, (windowSettings 30).resolve 0 = .ok o
      ∧ value? o.analysis.windowSize = some ((2 ^ 30 : ℕ) : ℚ)
      ∧ ¬StagesEnd (2 ^ 30)
      ∧ ¬∃ spectrum, magnitudeSpectrum (silentFrame (2 ^ 30)) = .ok spectrum)
    ∧ ∃ o : RemixOptions Float, (windowSettings 52).resolve 0 = .ok o
      ∧ ¬∃ (_ : Memory) (beats : List (Beat Float)),
          analyzeBeats fourSilent o.analysis = .ok beats := by
  constructor
  · obtain ⟨o, ho, hv⟩ := exists_resolve_windowSettings (k := 30) (by norm_num) (by norm_num)
    have hsize : isTransformSize (silentFrame (2 ^ 30)).size = true := by
      rw [size_silentFrame]
      decide
    refine ⟨o, ho, hv, mt stagesEnd_iff.mp (lt_irrefl _), ?_⟩
    rintro ⟨spectrum, hspectrum⟩
    rw [magnitudeSpectrum_endless hsize (size_silentFrame _).ge] at hspectrum
    cases hspectrum
  · obtain ⟨o, ho, hv⟩ := exists_resolve_windowSettings (k := 52) (by norm_num) (by norm_num)
    have hpasses := (RemixSettings.resolve_eq_ok.mp ho).analysis.windowSize
    refine ⟨o, ho, ?_⟩
    rintro ⟨memory, beats, hbeats⟩
    have hlarge : Memory.longest < 2 ^ 52 := Memory.longest_lt.trans (by norm_num)
    rw [analyzeBeats_impossible hpasses hv hlarge (List.cons_ne_nil _ _)] at hbeats
    cases hbeats

end EndlessRemix
