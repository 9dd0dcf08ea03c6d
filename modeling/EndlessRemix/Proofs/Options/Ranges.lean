import EndlessRemix.Proofs.Number.Predecessor
import EndlessRemix.Proofs.Number.Remainder
import EndlessRemix.Proofs.Options.Resolve
import EndlessRemix.Remix.Error

/-!
# The ranges of the options

Settings are resolved exactly if every value, or the default that stands for it, is a number of the
range of its option. A range is a proposition on the exact value of a double, so that what is not
finite is in none.

The window is the exception. Its test sees the low 32 bits of a number and of its predecessor. Up to
`2 ^ 32` these tell the powers of two from the other numbers; beyond, many a number passes that is
none, and `2 ^ 32 + 1` is the first.
-/

namespace EndlessRemix

open Double (value? isFinite_iff lt_iff_of_value le_iff_of_value)

/-! ## Ranges of numbers -/

/-- The double is a number of this range. -/
def Double.LiesIn (range : ℚ → Prop) (v : Float) : Prop := ∃ q, value? v = some q ∧ range q

/-- The setting is a number that is accepted. -/
def Setting.Holds (accepted : Float → Prop) (s : Setting Float) : Prop :=
  ∃ v, s = .number v ∧ accepted v

open Double (LiesIn)

/-- A finite double with some property is a number of a range, if on numbers the property says that
they are. -/
lemma isFinite_and_iff {v : Float} {accepted : Prop} {range : ℚ → Prop}
    (h : ∀ q, value? v = some q → (accepted ↔ range q)) :
    Scalar.isFinite v = true ∧ accepted ↔ LiesIn range v := by
  rw [isFinite_iff]
  constructor
  · rintro ⟨⟨q, hq⟩, hv⟩
    exact ⟨q, hq, (h q hq).mp hv⟩
  · rintro ⟨q, hq, hrange⟩
    exact ⟨⟨q, hq⟩, (h q hq).mpr hrange⟩

namespace Setting

variable {s : Setting Float} {name : OptionName} {v : Float}

lemma nonNegative_iff : s.nonNegative name = .ok v ↔ s = .number v ∧ LiesIn (0 ≤ ·) v := by
  rw [nonNegative_eq_ok, and_assoc]
  refine and_congr_right fun _ => isFinite_and_iff ?_
  intro q hq
  rw [lt_iff_of_value hq Double.value?_zero, not_lt]

lemma positive_iff : s.positive name = .ok v ↔ s = .number v ∧ LiesIn (0 < ·) v := by
  rw [positive_eq_ok, and_assoc]
  refine and_congr_right fun _ => isFinite_and_iff ?_
  intro q hq
  rw [le_iff_of_value hq Double.value?_zero, not_le]

lemma probability_iff :
    s.probability = .ok v ↔ s = .number v ∧ LiesIn (fun q => 0 ≤ q ∧ q ≤ 1) v := by
  rw [probability_eq_ok, and_assoc]
  refine and_congr_right fun _ => isFinite_and_iff ?_
  intro q hq
  rw [lt_iff_of_value hq Double.value?_zero, lt_iff_of_value Double.value?_one hq, not_or, not_lt,
    not_lt]

lemma seed_iff :
    s.seed = .ok v ↔ ∃ x, (s = .number x ∧ LiesIn (fun _ => True) x) ∧ Scalar.truncate x = v := by
  rw [seed_eq_ok]
  simp only [isFinite_iff, LiesIn, and_true]

end Setting

/-- A whole double from a natural number on is a natural number from there on. -/
lemma whole_and_not_lt_iff {v : Float} {least : ℕ} (hleast : least < 2 ^ 53) :
    Scalar.isWhole v = true ∧ ¬v < Scalar.ofNat least
      ↔ ∃ n : ℕ, value? v = some (n : ℚ) ∧ least ≤ n := by
  have hbound := Double.value?_ofNat hleast
  constructor
  · rintro ⟨hwhole, hv⟩
    obtain ⟨k, hk⟩ := Double.isWhole_iff.mp hwhole
    rw [lt_iff_of_value hk hbound, not_lt] at hv
    have hle : (least : ℤ) ≤ k := by exact_mod_cast hv
    lift k to ℕ using (Int.natCast_nonneg least).trans hle
    exact ⟨k, by exact_mod_cast hk, by exact_mod_cast hle⟩
  · rintro ⟨n, hn, hle⟩
    refine ⟨Double.isWhole_iff.mpr ⟨n, by exact_mod_cast hn⟩, ?_⟩
    rw [lt_iff_of_value hn hbound, not_lt]
    exact_mod_cast hle

lemma Setting.beatsPerBar_iff {s : Setting Float} {v : Float} :
    s.beatsPerBar = .ok v ↔ s = .number v ∧ LiesIn (fun q => ∃ n : ℕ, q = n ∧ 1 ≤ n) v := by
  rw [beatsPerBar_eq_ok]
  refine and_congr_right fun _ => (whole_and_not_lt_iff (by norm_num)).trans ?_
  constructor
  · rintro ⟨n, hn, h1⟩
    exact ⟨n, hn, n, rfl, h1⟩
  · rintro ⟨_, hn, n, rfl, h1⟩
    exact ⟨n, hn, h1⟩

/-! ## The window -/

/-- The low 32 bits of a number and of its predecessor: none in common if all bits of the number are
clear, or all but one. -/
lemma low_and_pred_eq_zero_iff {n : ℕ} (hn : 1 ≤ n) :
    n % 2 ^ 32 &&& (n - 1) % 2 ^ 32 = 0 ↔ n % 2 ^ 32 = 0 ∨ (n % 2 ^ 32).isPowerOfTwo := by
  by_cases h0 : n % 2 ^ 32 = 0
  · simp only [h0, Nat.zero_and, true_or]
  · have hpred : (n - 1) % 2 ^ 32 = n % 2 ^ 32 - 1 := by omega
    rw [hpred, Nat.and_sub_one_eq_zero_iff_isPowerOfTwo h0, or_iff_right h0]

/-- A word of which two is the lowest bit shares all others with the word less two. -/
lemma and_sub_two {low : ℕ} (h : low % 4 = 2) : low &&& (low - 2) = low - 2 := by
  obtain ⟨a, rfl⟩ : ∃ a, low = 2 ^ 2 * a + 2 := ⟨low / 4, by omega⟩
  rw [Nat.add_sub_cancel, Nat.two_pow_add_eq_or_of_lt (by norm_num)]
  apply Nat.eq_of_testBit_eq
  intro i
  rw [Nat.testBit_and, Nat.testBit_or]
  cases (2 ^ 2 * a).testBit i with
  | false => exact Bool.and_false _
  | true => rfl

section

variable {v : Float} {n : ℕ}

lemma toWord_of_value (h : value? v = some (n : ℚ)) : (Scalar.whole v).toWord 32 = n % 2 ^ 32 := by
  rw [Double.whole_of_value (k := n) (by exact_mod_cast h), Whole.toWord, Nat.pow_eq]
  omega

/-- A number whose low 32 bits are clear passes the test, whatever its predecessor is. -/
lemma sharesNoBit_of_low (h : value? v = some (n : ℚ)) (hlow : n % 2 ^ 32 = 0) :
    sharesNoBit v = true := by
  rw [sharesNoBit, toWord_of_value h, hlow, Nat.zero_and]
  rfl

/-- As long as the predecessor is exact, the test sees the low bits of both. -/
lemma sharesNoBit_iff_and (h : value? v = some (n : ℚ)) (hn : 1 ≤ n) (hexact : n < 2 ^ 53) :
    sharesNoBit v = true ↔ n % 2 ^ 32 &&& (n - 1) % 2 ^ 32 = 0 := by
  have hpred : value? (v - 1) = some ((n - 1 : ℕ) : ℚ) :=
    Double.value?_sub h Double.value?_one (by omega) (by push_cast [hn]; ring)
  rw [sharesNoBit, toWord_of_value h, toWord_of_value hpred, beq_iff_eq]

lemma sharesNoBit_iff (h : value? v = some (n : ℚ)) (hn : 1 ≤ n) (hexact : n < 2 ^ 53) :
    sharesNoBit v = true ↔ n % 2 ^ 32 = 0 ∨ (n % 2 ^ 32).isPowerOfTwo :=
  (sharesNoBit_iff_and h hn hexact).trans (low_and_pred_eq_zero_iff hn)

/-- Of the numbers up to `2 ^ 32` the powers of two pass the test. -/
lemma sharesNoBit_iff_isPowerOfTwo (h : value? v = some (n : ℚ)) (hn : 1 ≤ n) (hle : n ≤ 2 ^ 32) :
    sharesNoBit v = true ↔ n.isPowerOfTwo := by
  rw [sharesNoBit_iff h hn (by omega)]
  rcases hle.lt_or_eq with hlt | rfl
  · rw [Nat.mod_eq_of_lt hlt, or_iff_right (by omega)]
  · simp only [Nat.mod_self, true_or, true_iff]
    exact ⟨32, rfl⟩

/-- Every power of two passes the test. -/
lemma sharesNoBit_two_pow {k : ℕ} (h : value? v = some ((2 ^ k : ℕ) : ℚ)) :
    sharesNoBit v = true := by
  by_cases hk : k < 32
  · have hle : 2 ^ k ≤ 2 ^ 32 := Nat.pow_le_pow_right (by norm_num) hk.le
    exact (sharesNoBit_iff_isPowerOfTwo h Nat.one_le_two_pow hle).mpr ⟨k, rfl⟩
  · have hdvd : 2 ^ 32 ∣ 2 ^ k := Nat.pow_dvd_pow 2 (not_lt.mp hk)
    exact sharesNoBit_of_low h (Nat.mod_eq_zero_of_dvd hdvd)

/-- From `2 ^ 53` on, where the predecessor may be rounded, the numbers with clear low bits pass the
test, and below `2 ^ 54` also those whose low bits are two. -/
lemma sharesNoBit_iff_of_large (h : value? v = some (n : ℚ)) (hn : 2 ^ 53 ≤ n) :
    sharesNoBit v = true ↔ n % 2 ^ 32 = 0 ∨ n < 2 ^ 54 ∧ n % 2 ^ 32 = 2 := by
  by_cases hlow : n % 2 ^ 32 = 0
  · exact iff_of_true (sharesNoBit_of_low h hlow) (.inl hlow)
  · have hlt : 2 ^ 53 < n := by omega
    rw [sharesNoBit, toWord_of_value h, beq_iff_eq, or_iff_right hlow]
    by_cases htie : n < 2 ^ 54 ∧ n % 4 = 2
    · rw [toWord_of_value (Double.value?_sub_one_of_tie h hlt htie.1 htie.2)]
      have hpred : (n - 2) % 2 ^ 32 = n % 2 ^ 32 - 2 := by omega
      rw [hpred, and_sub_two (by omega)]
      omega
    · have hsame := Double.value?_sub_one_of_large h hlt fun hlt hmod => htie ⟨hlt, hmod⟩
      rw [toWord_of_value hsame, Nat.and_self]
      omega

end

/-- A power of two from two on, which is what a window is meant to be. -/
def IsWindow (v : Float) : Prop := ∃ k : ℕ, 1 ≤ k ∧ value? v = some ((2 ^ k : ℕ) : ℚ)

/-- A window beyond `2 ^ 32` that passes for a power of two, by its low 32 bits. Numbers above
`2 ^ 53` have no exact predecessor. There the low bits have to be clear, or below `2 ^ 54` they may
be those of two. -/
structure PassesForWindow (v : Float) (n : ℕ) : Prop where
  value : value? v = some (n : ℚ)
  large : 2 ^ 32 < n
  low : n < 2 ^ 53 → n % 2 ^ 32 = 0 ∨ (n % 2 ^ 32).isPowerOfTwo
  rounded : 2 ^ 53 ≤ n → n % 2 ^ 32 = 0 ∨ n < 2 ^ 54 ∧ n % 2 ^ 32 = 2

lemma Setting.windowSize_iff {s : Setting Float} {v : Float} :
    s.windowSize = .ok v ↔ s = .number v ∧ (IsWindow v ∨ ∃ n, PassesForWindow v n) := by
  rw [windowSize_eq_ok]
  refine and_congr_right fun _ => ?_
  rw [← and_assoc]
  refine (and_congr_left' (whole_and_not_lt_iff (show 2 < 2 ^ 53 by norm_num))).trans ?_
  constructor
  · rintro ⟨⟨n, hn, h2⟩, hbits⟩
    by_cases hlarge : 2 ^ 32 < n
    · exact .inr ⟨n, hn, hlarge, (sharesNoBit_iff hn (by omega) · |>.mp hbits),
        (sharesNoBit_iff_of_large hn · |>.mp hbits)⟩
    · obtain ⟨k, rfl⟩ :=
        (sharesNoBit_iff_isPowerOfTwo hn (by omega) (not_lt.mp hlarge)).mp hbits
      refine .inl ⟨k, ?_, hn⟩
      by_contra hk
      obtain rfl : k = 0 := by omega
      omega
  · rintro (⟨k, hk, hv⟩ | ⟨n, hv, hlarge, hlow, hrounded⟩)
    · exact ⟨⟨2 ^ k, hv, Nat.le_self_pow (by omega) 2⟩, sharesNoBit_two_pow hv⟩
    · refine ⟨⟨n, hv, by omega⟩, ?_⟩
      by_cases hexact : n < 2 ^ 53
      · exact (sharesNoBit_iff hv (by omega) hexact).mpr (hlow hexact)
      · exact (sharesNoBit_iff_of_large hv (not_lt.mp hexact)).mpr (hrounded (not_lt.mp hexact))

/-! ## All settings -/

/-- What is given for the weights. -/
def WeightSettings.given (s : WeightSettings Float) : List (Setting Float) :=
  [s.timbre, s.pitch, s.loudnessStart, s.loudnessMax, s.duration, s.confidence].filterMap id

/-- Every setting, or the default that stands for it, is in the range of its option. -/
structure RemixSettings.InRanges (window : Float → Prop) (s : RemixSettings Float) : Prop where
  targetDurationSeconds :
    (settingOr (.number standardDuration) s.targetDurationSeconds).Holds (LiesIn (0 < ·))
  threshold :
    (settingOr (.number GraphOptions.standard.threshold) s.threshold).Holds (LiesIn (0 ≤ ·))
  branchProbability :
    (settingOr (.number standardBranchProbability) s.branchProbability).Holds
      (LiesIn fun q => 0 ≤ q ∧ q ≤ 1)
  phasePenalty :
    (settingOr (.number GraphOptions.standard.phasePenalty) s.phasePenalty).Holds (LiesIn (0 ≤ ·))
  beatsPerBar :
    (settingOr (.number GraphOptions.standard.beatsPerBar) s.beatsPerBar).Holds
      (LiesIn fun q => ∃ n : ℕ, q = n ∧ 1 ≤ n)
  degenerateGraph :
    settingOr (.text DegeneratePolicy.warn.text) s.degenerateGraph ∈ [.text "warn", .text "reject"]
  seed : ∀ setting, s.seed = some setting → setting.Holds (LiesIn fun _ => True)
  weights : ∀ setting ∈ s.weights.given, setting.Holds (LiesIn (0 ≤ ·))
  windowSize :
    (settingOr (.number AnalysisOptions.standard.windowSize) s.analysis.windowSize).Holds window
  envelopeRate :
    (settingOr (.number AnalysisOptions.standard.envelopeRate) s.analysis.envelopeRate).Holds
      (LiesIn (0 < ·))
  onsetThreshold :
    (settingOr (.number AnalysisOptions.standard.onsetThreshold) s.analysis.onsetThreshold).Holds
      (LiesIn (0 ≤ ·))
  minBeatInterval :
    (settingOr (.number AnalysisOptions.standard.minBeatInterval) s.analysis.minBeatInterval).Holds
      (LiesIn (0 ≤ ·))

/-- The weights are the given ones, and the default ones where none is given. -/
structure WeightSettings.Resolved (s : WeightSettings Float) (o : Weights Float) : Prop where
  timbre : s.timbre.getD (.number Weights.standard.timbre) = .number o.timbre
  pitch : s.pitch.getD (.number Weights.standard.pitch) = .number o.pitch
  loudnessStart :
    s.loudnessStart.getD (.number Weights.standard.loudnessStart) = .number o.loudnessStart
  loudnessMax : s.loudnessMax.getD (.number Weights.standard.loudnessMax) = .number o.loudnessMax
  duration : s.duration.getD (.number Weights.standard.duration) = .number o.duration
  confidence : s.confidence.getD (.number Weights.standard.confidence) = .number o.confidence

/-- The options are the given values, and the defaults where none is given. Of a given seed the
whole part is left. -/
structure RemixSettings.Resolved (drawn : Float) (s : RemixSettings Float)
    (o : RemixOptions Float) : Prop where
  targetDurationSeconds :
    settingOr (.number standardDuration) s.targetDurationSeconds = .number o.targetDurationSeconds
  threshold : settingOr (.number GraphOptions.standard.threshold) s.threshold = .number o.threshold
  branchProbability :
    settingOr (.number standardBranchProbability) s.branchProbability = .number o.branchProbability
  phasePenalty :
    settingOr (.number GraphOptions.standard.phasePenalty) s.phasePenalty = .number o.phasePenalty
  beatsPerBar :
    settingOr (.number GraphOptions.standard.beatsPerBar) s.beatsPerBar = .number o.beatsPerBar
  degenerateGraph :
    settingOr (.text DegeneratePolicy.warn.text) s.degenerateGraph = .text o.degenerateGraph.text
  drawnSeed : s.seed = none → o.seed = seedOfDraw drawn
  givenSeed : ∀ setting, s.seed = some setting → ∃ v q, setting = .number v ∧ value? v = some q
    ∧ value? o.seed = some (Double.towardZero q : ℚ)
  weights : s.weights.Resolved o.weights
  windowSize :
    settingOr (.number AnalysisOptions.standard.windowSize) s.analysis.windowSize
      = .number o.analysis.windowSize
  envelopeRate :
    settingOr (.number AnalysisOptions.standard.envelopeRate) s.analysis.envelopeRate
      = .number o.analysis.envelopeRate
  onsetThreshold :
    settingOr (.number AnalysisOptions.standard.onsetThreshold) s.analysis.onsetThreshold
      = .number o.analysis.onsetThreshold
  minBeatInterval :
    settingOr (.number AnalysisOptions.standard.minBeatInterval) s.analysis.minBeatInterval
      = .number o.analysis.minBeatInterval

/-- The words of the policies. -/
lemma Setting.policy_eq_ok {s : Setting Float} {policy : DegeneratePolicy} :
    s.policy = .ok policy ↔ s = .text policy.text := by
  constructor
  · intro h
    cases s with
    | text word =>
      rw [Setting.policy, DegeneratePolicy.of?] at h
      split_ifs at h with hwarn hreject
      · obtain rfl := Except.ok.inj h
        rw [hwarn]
      · obtain rfl := Except.ok.inj h
        rw [hreject]
    | _ => cases h
  · rintro rfl
    exact policy_text policy

section

variable {name : OptionName} {default v : Float} {setting : Option (Setting Float)}

/-- A weight that passes is the given one or the default. -/
lemma weightOr_resolved (h : weightOr name default setting = .ok v) :
    setting.getD (.number default) = .number v := by
  cases setting with
  | none =>
    obtain rfl := Except.ok.inj h
    rfl
  | some s => exact (Setting.nonNegative_iff.mp h).1

/-- A weight passes if what is given for it is in range. -/
lemma exists_weightOr_iff :
    (∃ v, weightOr name default setting = .ok v)
      ↔ ∀ s, setting = some s → s.Holds (LiesIn (0 ≤ ·)) := by
  cases setting with
  | none => exact ⟨fun _ _ h => (nomatch h), fun _ => ⟨default, rfl⟩⟩
  | some s =>
    constructor
    · rintro ⟨v, hv⟩ _ ⟨⟩
      exact ⟨v, Setting.nonNegative_iff.mp hv⟩
    · intro h
      obtain ⟨v, hv⟩ := h s rfl
      exact ⟨v, Setting.nonNegative_iff.mpr hv⟩

end

lemma WeightSettings.mem_given {s : WeightSettings Float} {setting : Setting Float} :
    setting ∈ s.given ↔ s.timbre = some setting ∨ s.pitch = some setting
      ∨ s.loudnessStart = some setting ∨ s.loudnessMax = some setting
      ∨ s.duration = some setting ∨ s.confidence = some setting := by
  rw [WeightSettings.given, List.mem_filterMap]
  simp only [id, exists_eq_right, List.mem_cons, List.not_mem_nil, or_false, eq_comm]

/-- Weights are given if all that is given for them is in range. -/
lemma WeightSettings.exists_gives_iff {s : WeightSettings Float} :
    (∃ o, s.Gives o) ↔ ∀ setting ∈ s.given, setting.Holds (LiesIn (0 ≤ ·)) := by
  constructor
  · rintro ⟨o, h⟩ setting hmem
    rcases mem_given.mp hmem with hs | hs | hs | hs | hs | hs
    · exact exists_weightOr_iff.mp ⟨_, h.timbre⟩ _ hs
    · exact exists_weightOr_iff.mp ⟨_, h.pitch⟩ _ hs
    · exact exists_weightOr_iff.mp ⟨_, h.loudnessStart⟩ _ hs
    · exact exists_weightOr_iff.mp ⟨_, h.loudnessMax⟩ _ hs
    · exact exists_weightOr_iff.mp ⟨_, h.duration⟩ _ hs
    · exact exists_weightOr_iff.mp ⟨_, h.confidence⟩ _ hs
  · intro h
    simp only [mem_given] at h
    obtain ⟨timbre, h1⟩ := exists_weightOr_iff.mpr fun w hw => h w (.inl hw)
    obtain ⟨pitch, h2⟩ := exists_weightOr_iff.mpr fun w hw => h w (.inr (.inl hw))
    obtain ⟨start, h3⟩ := exists_weightOr_iff.mpr fun w hw => h w (.inr (.inr (.inl hw)))
    obtain ⟨loudest, h4⟩ :=
      exists_weightOr_iff.mpr fun w hw => h w (.inr (.inr (.inr (.inl hw))))
    obtain ⟨duration, h5⟩ :=
      exists_weightOr_iff.mpr fun w hw => h w (.inr (.inr (.inr (.inr (.inl hw)))))
    obtain ⟨confidence, h6⟩ :=
      exists_weightOr_iff.mpr fun w hw => h w (.inr (.inr (.inr (.inr (.inr hw)))))
    exact ⟨⟨timbre, pitch, start, loudest, duration, confidence⟩, h1, h2, h3, h4, h5, h6⟩

lemma WeightSettings.Gives.resolved {s : WeightSettings Float} {o : Weights Float}
    (h : s.Gives o) : s.Resolved o where
  timbre := weightOr_resolved h.timbre
  pitch := weightOr_resolved h.pitch
  loudnessStart := weightOr_resolved h.loudnessStart
  loudnessMax := weightOr_resolved h.loudnessMax
  duration := weightOr_resolved h.duration
  confidence := weightOr_resolved h.confidence

/-- What passes the test of a window. -/
def AcceptedWindow (v : Float) : Prop := IsWindow v ∨ ∃ n, PassesForWindow v n

namespace RemixSettings

variable {drawn : Float} {s : RemixSettings Float} {o : RemixOptions Float}

lemma Gives.inRanges (h : s.Gives drawn o) : s.InRanges AcceptedWindow where
  targetDurationSeconds := ⟨_, Setting.positive_iff.mp h.targetDurationSeconds⟩
  threshold := ⟨_, Setting.nonNegative_iff.mp h.threshold⟩
  branchProbability := ⟨_, Setting.probability_iff.mp h.branchProbability⟩
  phasePenalty := ⟨_, Setting.nonNegative_iff.mp h.phasePenalty⟩
  beatsPerBar := ⟨_, Setting.beatsPerBar_iff.mp h.beatsPerBar⟩
  degenerateGraph := by
    rw [Setting.policy_eq_ok.mp h.degenerateGraph]
    cases o.degenerateGraph <;> decide
  seed := by
    intro setting hs
    obtain ⟨v, hv, -⟩ := Setting.seed_iff.mp (h.givenSeed setting hs)
    exact ⟨v, hv⟩
  weights := WeightSettings.exists_gives_iff.mp ⟨_, h.weights⟩
  windowSize := ⟨_, Setting.windowSize_iff.mp h.analysis.windowSize⟩
  envelopeRate := ⟨_, Setting.positive_iff.mp h.analysis.envelopeRate⟩
  onsetThreshold := ⟨_, Setting.nonNegative_iff.mp h.analysis.onsetThreshold⟩
  minBeatInterval := ⟨_, Setting.nonNegative_iff.mp h.analysis.minBeatInterval⟩

lemma Gives.resolved (h : s.Gives drawn o) : s.Resolved drawn o where
  targetDurationSeconds := (Setting.positive_iff.mp h.targetDurationSeconds).1
  threshold := (Setting.nonNegative_iff.mp h.threshold).1
  branchProbability := (Setting.probability_iff.mp h.branchProbability).1
  phasePenalty := (Setting.nonNegative_iff.mp h.phasePenalty).1
  beatsPerBar := (Setting.beatsPerBar_iff.mp h.beatsPerBar).1
  degenerateGraph := Setting.policy_eq_ok.mp h.degenerateGraph
  drawnSeed := h.drawnSeed
  givenSeed := by
    intro setting hs
    obtain ⟨v, ⟨hv, q, hq, -⟩, hseed⟩ := Setting.seed_iff.mp (h.givenSeed setting hs)
    refine ⟨v, q, hv, hq, ?_⟩
    rw [← hseed]
    exact Double.value?_truncate hq
  weights := h.weights.resolved
  windowSize := (Setting.windowSize_iff.mp h.analysis.windowSize).1
  envelopeRate := (Setting.positive_iff.mp h.analysis.envelopeRate).1
  onsetThreshold := (Setting.nonNegative_iff.mp h.analysis.onsetThreshold).1
  minBeatInterval := (Setting.nonNegative_iff.mp h.analysis.minBeatInterval).1

/-- A seed is missing, and one is drawn, or what is given for it is finite. -/
lemma InRanges.exists_seed {window : Float → Prop} (h : s.InRanges window) (drawn : Float) :
    ∃ v, (s.seed = none → v = seedOfDraw drawn)
      ∧ ∀ setting, s.seed = some setting → setting.seed = .ok v := by
  cases hseed : s.seed with
  | none => exact ⟨seedOfDraw drawn, fun _ => rfl, fun _ h => (nomatch h)⟩
  | some setting =>
    obtain ⟨v, hv⟩ := h.seed setting hseed
    refine ⟨Scalar.truncate v, fun h => (nomatch h), ?_⟩
    rintro _ ⟨⟩
    exact Setting.seed_iff.mpr ⟨v, hv, rfl⟩

/-- Settings in range give options, whatever is drawn. -/
lemma InRanges.exists_gives (h : s.InRanges AcceptedWindow) (drawn : Float) :
    ∃ o, s.Gives drawn o := by
  obtain ⟨duration, h1⟩ := h.targetDurationSeconds
  obtain ⟨threshold, h2⟩ := h.threshold
  obtain ⟨probability, h3⟩ := h.branchProbability
  obtain ⟨penalty, h4⟩ := h.phasePenalty
  obtain ⟨beatsPerBar, h5⟩ := h.beatsPerBar
  obtain ⟨policy, h6⟩ : ∃ policy : DegeneratePolicy,
      settingOr (.text DegeneratePolicy.warn.text) s.degenerateGraph = .text policy.text := by
    rcases List.mem_pair.mp h.degenerateGraph with hwarn | hreject
    · exact ⟨.warn, hwarn⟩
    · exact ⟨.reject, hreject⟩
  obtain ⟨seed, h7, h8⟩ := h.exists_seed drawn
  obtain ⟨weights, h9⟩ := WeightSettings.exists_gives_iff.mpr h.weights
  obtain ⟨window, h10⟩ := h.windowSize
  obtain ⟨rate, h11⟩ := h.envelopeRate
  obtain ⟨least, h12⟩ := h.onsetThreshold
  obtain ⟨interval, h13⟩ := h.minBeatInterval
  refine ⟨⟨duration, threshold, probability, seed, weights, penalty, beatsPerBar, policy,
    ⟨window, rate, least, interval⟩⟩, ?_⟩
  exact {
    targetDurationSeconds := Setting.positive_iff.mpr h1
    threshold := Setting.nonNegative_iff.mpr h2
    branchProbability := Setting.probability_iff.mpr h3
    phasePenalty := Setting.nonNegative_iff.mpr h4
    beatsPerBar := Setting.beatsPerBar_iff.mpr h5
    degenerateGraph := Setting.policy_eq_ok.mpr h6
    drawnSeed := h7
    givenSeed := h8
    weights := h9
    analysis := {
      windowSize := Setting.windowSize_iff.mpr h10
      envelopeRate := Setting.positive_iff.mpr h11
      onsetThreshold := Setting.nonNegative_iff.mpr h12
      minBeatInterval := Setting.nonNegative_iff.mpr h13 } }

/-- Settings are resolved exactly if all are in range, to what is given or stands for it by default,
and else the fault is one of the configuration. -/
theorem resolve_ranges (drawn : Float) (s : RemixSettings Float) :
    ((∃ o, s.resolve drawn = .ok o) ↔ s.InRanges AcceptedWindow)
      ∧ (∀ o, s.resolve drawn = .ok o → s.Resolved drawn o)
      ∧ ∀ fault, s.resolve drawn = .error fault →
          (RemixError.option fault).kind? = some .configuration := by
  refine ⟨⟨?_, ?_⟩, ?_, fun _ _ => rfl⟩
  · rintro ⟨o, ho⟩
    exact (resolve_eq_ok.mp ho).inRanges
  · intro hranges
    obtain ⟨o, hgives⟩ := hranges.exists_gives drawn
    exact ⟨o, resolve_eq_ok.mpr hgives⟩
  · intro o ho
    exact (resolve_eq_ok.mp ho).resolved

/-- Settings of a window and of nothing else. -/
def ofWindow (v : Float) : RemixSettings Float :=
  { analysis := { windowSize := Setting.ofNumber v } }

/-- Every default passes its own check. -/
lemma exists_gives_default : ∃ o, RemixSettings.Gives (0 : Float) {} o := by
  have hok : (RemixSettings.resolve (0 : Float) {}).isOk = true := by decide +kernel
  cases ho : RemixSettings.resolve (0 : Float) {} with
  | ok o => exact ⟨o, resolve_eq_ok.mp ho⟩
  | error fault => rw [ho] at hok; cases hok

/-- A window that passes its test is accepted beside the defaults. -/
lemma exists_resolve_ofWindow {v : Float} (hv : AcceptedWindow v) :
    ∃ o, (ofWindow v).resolve 0 = .ok o ∧ o.analysis.windowSize = v := by
  obtain ⟨o, ho⟩ := exists_gives_default
  refine ⟨{ o with analysis := { o.analysis with windowSize := v } }, resolve_eq_ok.mpr ?_, rfl⟩
  exact { ho with
    analysis := { ho.analysis with windowSize := Setting.windowSize_iff.mpr ⟨rfl, hv⟩ } }

lemma value?_beyond_word : value? 4294967297 = some ((4294967297 : ℕ) : ℚ) :=
  Double.value?_ofNat (by norm_num)

/-- A window of `2 ^ 32 + 1` samples is accepted, although it is none. -/
theorem not_resolve_isWindow :
    ¬((∃ o, (ofWindow 4294967297).resolve 0 = .ok o)
        ↔ (ofWindow 4294967297).InRanges IsWindow) := by
  intro hclaim
  have hpasses : PassesForWindow 4294967297 4294967297 :=
    ⟨value?_beyond_word, by norm_num, fun _ => .inr ⟨0, rfl⟩, by omega⟩
  obtain ⟨o, ho, -⟩ := exists_resolve_ofWindow (.inr ⟨_, hpasses⟩)
  obtain ⟨v, hv, k, hk, hpow⟩ := (hclaim.mp ⟨o, ho⟩).windowSize
  obtain rfl : 4294967297 = v := Setting.number.inj hv
  have heq : 4294967297 = 2 ^ k := by
    exact_mod_cast Option.some.inj (value?_beyond_word.symm.trans hpow)
  -- an odd number is no power of two
  obtain ⟨m, rfl⟩ : ∃ m, k = m + 1 := ⟨k - 1, by omega⟩
  rw [pow_succ] at heq
  omega

end RemixSettings

end EndlessRemix
