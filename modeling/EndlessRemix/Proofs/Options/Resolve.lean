import EndlessRemix.Options.Resolve
import EndlessRemix.Proofs.Except
import EndlessRemix.Proofs.Number.Range

/-!
# Settings and the options they give

A check of a setting gives back the number that the setting holds, and `Gives` says field by field
which options come out of which settings. Options written as settings pass every check again: a
value that was given has passed it before, and a default that was never checked would have passed
it. Only the seed is not kept as it was given; what is left of it is whole, and a whole seed is
kept.
-/

namespace EndlessRemix

/-! ## One setting -/

namespace Setting

section

variable {R : Type} [Scalar R] {s : Setting R} {name : OptionName} {v : R}

omit [Scalar R] in
/-- A check that takes the numbers of some kind and nothing else. -/
lemma accept_eq_ok {p : R → Prop} [DecidablePred p] {fault : OptionFault R} :
    (match s with
      | .number value => if p value then .ok value else .error fault
      | _ => .error fault : Except (OptionFault R) R) = .ok v
      ↔ s = .number v ∧ p v := by
  cases s with
  | number value =>
    show (if p value then .ok value else .error fault : Except (OptionFault R) R) = .ok v ↔ _
    split_ifs with h
    · constructor
      · rintro ⟨⟩
        exact ⟨rfl, h⟩
      · rintro ⟨⟨⟩, -⟩
        rfl
    · constructor
      · rintro ⟨⟩
      · rintro ⟨⟨⟩, hv⟩
        exact absurd hv h
  | _ => exact ⟨fun h => (nomatch h), fun h => (nomatch h.1)⟩

lemma finite_eq_ok : s.finite name = .ok v ↔ s = .number v ∧ Scalar.isFinite v = true :=
  accept_eq_ok (p := fun value => Scalar.isFinite value = true)

lemma nonNegative_eq_ok :
    s.nonNegative name = .ok v ↔ (s = .number v ∧ Scalar.isFinite v = true) ∧ ¬v < 0 := by
  rw [← finite_eq_ok]
  exact guard_eq_ok

lemma positive_eq_ok :
    s.positive name = .ok v ↔ (s = .number v ∧ Scalar.isFinite v = true) ∧ ¬v ≤ 0 := by
  rw [← finite_eq_ok]
  exact guard_eq_ok

lemma probability_eq_ok :
    s.probability = .ok v ↔ (s = .number v ∧ Scalar.isFinite v = true) ∧ ¬(v < 0 ∨ 1 < v) := by
  rw [← finite_eq_ok]
  exact guard_eq_ok

lemma beatsPerBar_eq_ok :
    s.beatsPerBar = .ok v ↔ s = .number v ∧ Scalar.isWhole v = true ∧ ¬v < 1 :=
  accept_eq_ok (p := fun value => Scalar.isWhole value = true ∧ ¬value < 1)

lemma windowSize_eq_ok :
    s.windowSize = .ok v
      ↔ s = .number v ∧ Scalar.isWhole v = true ∧ ¬v < 2 ∧ sharesNoBit v = true :=
  accept_eq_ok (p := fun value => Scalar.isWhole value = true ∧ ¬value < 2 ∧ sharesNoBit value = true)

lemma seed_eq_ok :
    s.seed = .ok v ↔ ∃ x, (s = .number x ∧ Scalar.isFinite x = true) ∧ Scalar.truncate x = v := by
  rw [Setting.seed, bind_eq_ok]
  simp only [finite_eq_ok, pure_eq_ok]

omit [Scalar R] in
/-- The word of a policy names it. -/
lemma policy_text (policy : DegeneratePolicy) :
    (Setting.text policy.text : Setting R).policy = .ok policy := by
  cases policy <;> rfl

/-! A value that passes a check passes it again when it is given as a setting. -/

lemma nonNegative_again (h : s.nonNegative name = .ok v) : (number v).nonNegative name = .ok v := by
  obtain ⟨⟨-, hfinite⟩, hv⟩ := nonNegative_eq_ok.mp h
  exact nonNegative_eq_ok.mpr ⟨⟨rfl, hfinite⟩, hv⟩

lemma positive_again (h : s.positive name = .ok v) : (number v).positive name = .ok v := by
  obtain ⟨⟨-, hfinite⟩, hv⟩ := positive_eq_ok.mp h
  exact positive_eq_ok.mpr ⟨⟨rfl, hfinite⟩, hv⟩

lemma probability_again (h : s.probability = .ok v) : (number v).probability = .ok v := by
  obtain ⟨⟨-, hfinite⟩, hv⟩ := probability_eq_ok.mp h
  exact probability_eq_ok.mpr ⟨⟨rfl, hfinite⟩, hv⟩

lemma beatsPerBar_again (h : s.beatsPerBar = .ok v) : (number v).beatsPerBar = .ok v :=
  beatsPerBar_eq_ok.mpr ⟨rfl, (beatsPerBar_eq_ok.mp h).2⟩

lemma windowSize_again (h : s.windowSize = .ok v) : (number v).windowSize = .ok v :=
  windowSize_eq_ok.mpr ⟨rfl, (windowSize_eq_ok.mp h).2⟩

end

/-- A given seed is reduced to a whole double. -/
lemma integral_of_seed {s : Setting Float} {v : Float} (h : s.seed = .ok v) :
    Double.Integral v := by
  obtain ⟨x, ⟨-, hfinite⟩, rfl⟩ := seed_eq_ok.mp h
  obtain ⟨a, ha⟩ := (Double.isFinite_iff x).mp hfinite
  exact Double.integral_truncate ha

/-- A whole double is kept as a seed. -/
lemma seed_of_integral {v : Float} (h : Double.Integral v) : (number v).seed = .ok v :=
  seed_eq_ok.mpr ⟨v, ⟨rfl, h.isFinite⟩, h.truncate_eq⟩

end Setting

/-- A seed drawn from `[0, 1)` is a whole double. -/
lemma integral_seedOfDraw {drawn : Float} (h0 : 0 ≤ drawn) (h1 : drawn < 1) :
    Double.Integral (seedOfDraw drawn) := by
  obtain ⟨a, ha⟩ := Double.exists_value_of_between Double.value?_zero Double.value?_one h0
    (Double.le_of_lt h1)
  have hscale : Double.value? (Scalar.ofNat 1000000000) = some ((1000000000 : ℕ) : ℚ) :=
    Double.value?_ofNat (by norm_num)
  have ha0 : 0 ≤ a := (Double.le_iff_of_value Double.value?_zero ha).mp h0
  have ha1 : a < 1 := (Double.lt_iff_of_value ha Double.value?_one).mp h1
  obtain ⟨q, hq⟩ := Double.exists_value_mul ha hscale (by
    rw [abs_of_nonneg (by positivity)]
    calc a * ((1000000000 : ℕ) : ℚ) ≤ 1 * ((1000000000 : ℕ) : ℚ) := by gcongr
      _ < 2 ^ 200 := by norm_num)
  exact Double.integral_floor hq

/-! ## All settings -/

section

variable {R : Type} [Scalar R]

/-- These settings give these weights. -/
structure WeightSettings.Gives (s : WeightSettings R) (o : Weights R) : Prop where
  timbre : weightOr .weightOfTimbre Weights.standard.timbre s.timbre = .ok o.timbre
  pitch : weightOr .weightOfPitch Weights.standard.pitch s.pitch = .ok o.pitch
  loudnessStart :
    weightOr .weightOfLoudnessStart Weights.standard.loudnessStart s.loudnessStart
      = .ok o.loudnessStart
  loudnessMax :
    weightOr .weightOfLoudnessMax Weights.standard.loudnessMax s.loudnessMax = .ok o.loudnessMax
  duration : weightOr .weightOfDuration Weights.standard.duration s.duration = .ok o.duration
  confidence :
    weightOr .weightOfConfidence Weights.standard.confidence s.confidence = .ok o.confidence

/-- These settings give this analysis. -/
structure AnalysisSettings.Gives (s : AnalysisSettings R) (o : AnalysisOptions R) : Prop where
  windowSize :
    (settingOr (.number AnalysisOptions.standard.windowSize) s.windowSize).windowSize
      = .ok o.windowSize
  envelopeRate :
    (settingOr (.number AnalysisOptions.standard.envelopeRate) s.envelopeRate).positive
      .envelopeRate = .ok o.envelopeRate
  onsetThreshold :
    (settingOr (.number AnalysisOptions.standard.onsetThreshold) s.onsetThreshold).nonNegative
      .onsetThreshold = .ok o.onsetThreshold
  minBeatInterval :
    (settingOr (.number AnalysisOptions.standard.minBeatInterval) s.minBeatInterval).nonNegative
      .minBeatInterval = .ok o.minBeatInterval

/-- These settings give these options, if this number is drawn for a seed. -/
structure RemixSettings.Gives (drawn : R) (s : RemixSettings R) (o : RemixOptions R) : Prop where
  targetDurationSeconds :
    (settingOr (.number standardDuration) s.targetDurationSeconds).positive
      .targetDurationSeconds = .ok o.targetDurationSeconds
  threshold :
    (settingOr (.number GraphOptions.standard.threshold) s.threshold).nonNegative .threshold
      = .ok o.threshold
  branchProbability :
    (settingOr (.number standardBranchProbability) s.branchProbability).probability
      = .ok o.branchProbability
  phasePenalty :
    (settingOr (.number GraphOptions.standard.phasePenalty) s.phasePenalty).nonNegative
      .phasePenalty = .ok o.phasePenalty
  beatsPerBar :
    (settingOr (.number GraphOptions.standard.beatsPerBar) s.beatsPerBar).beatsPerBar
      = .ok o.beatsPerBar
  degenerateGraph :
    (settingOr (.text DegeneratePolicy.warn.text) s.degenerateGraph).policy = .ok o.degenerateGraph
  drawnSeed : s.seed = none → o.seed = seedOfDraw drawn
  givenSeed : ∀ setting, s.seed = some setting → setting.seed = .ok o.seed
  weights : s.weights.Gives o.weights
  analysis : s.analysis.Gives o.analysis

lemma WeightSettings.resolve_eq_ok {s : WeightSettings R} {o : Weights R} :
    s.resolve = .ok o ↔ s.Gives o := by
  rw [WeightSettings.resolve]
  simp only [bind_eq_ok, pure_eq_ok]
  constructor
  · rintro ⟨_, h1, _, h2, _, h3, _, h4, _, h5, _, h6, rfl⟩
    exact ⟨h1, h2, h3, h4, h5, h6⟩
  · rintro ⟨h1, h2, h3, h4, h5, h6⟩
    exact ⟨_, h1, _, h2, _, h3, _, h4, _, h5, _, h6, rfl⟩

lemma AnalysisSettings.resolve_eq_ok {s : AnalysisSettings R} {o : AnalysisOptions R} :
    s.resolve = .ok o ↔ s.Gives o := by
  rw [AnalysisSettings.resolve]
  simp only [bind_eq_ok, pure_eq_ok]
  constructor
  · rintro ⟨_, h1, _, h2, _, h3, _, h4, rfl⟩
    exact ⟨h1, h2, h3, h4⟩
  · rintro ⟨h1, h2, h3, h4⟩
    exact ⟨_, h1, _, h2, _, h3, _, h4, rfl⟩

/-- The seed is drawn if it is missing, and else it is the whole part of what is given. -/
lemma seed_bind_eq_ok {α : Type} {drawn : R} {seed : Option (Setting R)}
    {next : R → Except (OptionFault R) α} {b : α} :
    (match seed with
      | none => pure (seedOfDraw drawn) >>= next
      | some setting => setting.seed >>= next : Except (OptionFault R) α) = .ok b
      ↔ ∃ v, (seed = none → v = seedOfDraw drawn)
        ∧ (∀ setting, seed = some setting → setting.seed = .ok v) ∧ next v = .ok b := by
  cases seed with
  | none =>
    show next (seedOfDraw drawn) = .ok b ↔ _
    simp
  | some setting =>
    show setting.seed >>= next = .ok b ↔ _
    simp [bind_eq_ok]

theorem RemixSettings.resolve_eq_ok {drawn : R} {s : RemixSettings R} {o : RemixOptions R} :
    s.resolve drawn = .ok o ↔ s.Gives drawn o := by
  rw [RemixSettings.resolve]
  simp only [bind_eq_ok]
  constructor
  · rintro ⟨_, h1, _, h2, _, h3, _, h4, _, h5, _, h6, h⟩
    obtain ⟨seed, h7, h8, h⟩ := seed_bind_eq_ok.mp h
    simp only [bind_eq_ok, pure_eq_ok, WeightSettings.resolve_eq_ok,
      AnalysisSettings.resolve_eq_ok] at h
    obtain ⟨_, h9, _, h10, rfl⟩ := h
    exact ⟨h1, h2, h3, h4, h5, h6, h7, h8, h9, h10⟩
  · rintro ⟨h1, h2, h3, h4, h5, h6, h7, h8, h9, h10⟩
    refine ⟨_, h1, _, h2, _, h3, _, h4, _, h5, _, h6, seed_bind_eq_ok.mpr ⟨_, h7, h8, ?_⟩⟩
    rw [WeightSettings.resolve_eq_ok.mpr h9, AnalysisSettings.resolve_eq_ok.mpr h10]
    rfl

end

/-! ## Options as settings -/

/-- A weight that the settings give is given again, if the default could have been given. -/
lemma weightOr_again {R : Type} [Scalar R] {name : OptionName} {default v : R}
    {setting : Option (Setting R)} (hdefault : Scalar.isFinite default = true ∧ ¬default < 0)
    (h : weightOr name default setting = .ok v) :
    weightOr name default (Setting.ofNumber v) = .ok v := by
  cases setting with
  | none =>
    obtain rfl := Except.ok.inj h
    exact Setting.nonNegative_eq_ok.mpr ⟨⟨rfl, hdefault.1⟩, hdefault.2⟩
  | some s => exact Setting.nonNegative_again h

/-- Settings of given weights give them. -/
lemma WeightSettings.Gives.again {s : WeightSettings Float} {o : RemixOptions Float}
    (h : s.Gives o.weights) : o.settings.weights.Gives o.weights where
  timbre := weightOr_again (by decide +kernel) h.timbre
  pitch := weightOr_again (by decide +kernel) h.pitch
  loudnessStart := weightOr_again (by decide +kernel) h.loudnessStart
  loudnessMax := weightOr_again (by decide +kernel) h.loudnessMax
  duration := weightOr_again (by decide +kernel) h.duration
  confidence := weightOr_again (by decide +kernel) h.confidence

/-- Settings of a given analysis give it. -/
lemma AnalysisSettings.Gives.again {R : Type} [Scalar R] {s : AnalysisSettings R}
    {o : RemixOptions R} (h : s.Gives o.analysis) : o.settings.analysis.Gives o.analysis where
  windowSize := Setting.windowSize_again h.windowSize
  envelopeRate := Setting.positive_again h.envelopeRate
  onsetThreshold := Setting.nonNegative_again h.onsetThreshold
  minBeatInterval := Setting.nonNegative_again h.minBeatInterval

namespace RemixSettings.Gives

variable {drawn : Float} {s : RemixSettings Float} {o : RemixOptions Float}

/-- The seed of given options is a whole double. -/
lemma integral_seed (h : s.Gives drawn o) (hdrawn : s.seed = none → 0 ≤ drawn ∧ drawn < 1) :
    Double.Integral o.seed := by
  cases hseed : s.seed with
  | none =>
    rw [h.drawnSeed hseed]
    exact integral_seedOfDraw (hdrawn hseed).1 (hdrawn hseed).2
  | some setting => exact Setting.integral_of_seed (h.givenSeed setting hseed)

/-- Given options, written as settings, give themselves, whatever is drawn. -/
theorem again (h : s.Gives drawn o) (hdrawn : s.seed = none → 0 ≤ drawn ∧ drawn < 1)
    (drawn' : Float) : o.settings.Gives drawn' o where
  targetDurationSeconds := Setting.positive_again h.targetDurationSeconds
  threshold := Setting.nonNegative_again h.threshold
  branchProbability := Setting.probability_again h.branchProbability
  phasePenalty := Setting.nonNegative_again h.phasePenalty
  beatsPerBar := Setting.beatsPerBar_again h.beatsPerBar
  degenerateGraph := Setting.policy_text _
  drawnSeed := fun hnone => (nomatch hnone)
  givenSeed := by
    rintro _ ⟨⟩
    exact Setting.seed_of_integral (h.integral_seed hdrawn)
  weights := h.weights.again
  analysis := h.analysis.again

end RemixSettings.Gives

end EndlessRemix
