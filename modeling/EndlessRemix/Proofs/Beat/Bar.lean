import EndlessRemix.Proofs.Beat.Neighbors
import EndlessRemix.Proofs.Beat.Sequence
import EndlessRemix.Proofs.Number.Remainder
import EndlessRemix.Proofs.Number.Sign

/-!
# Beats in a bar

With weights that are not below zero no distance is below zero, whatever the features of the beats
are. So a penalty that is not below the threshold separates beats at different positions of the bar:
together with any distance it is no shorter than the threshold.
-/

namespace EndlessRemix

open Double

/-! ## Distances -/

/-- No weight is below zero. -/
structure Weights.NonNegative (w : Weights Float) : Prop where
  timbre : ¬w.timbre < 0
  pitch : ¬w.pitch < 0
  loudnessStart : ¬w.loudnessStart < 0
  loudnessMax : ¬w.loudnessMax < 0
  duration : ¬w.duration < 0
  confidence : ¬w.confidence < 0

/-- No distance is below zero, also where a feature is infinite or no number. -/
theorem not_distance_lt_zero {w : Weights Float} (h : w.NonNegative) (a b : Beat Float) :
    ¬a.distance w b < 0 := by
  have htimbre := not_mul_lt_zero (not_sqrt_lt_zero (addSquaredDifferences 0 a.timbre b.timbre))
    h.timbre
  have hpitch := not_mul_lt_zero (not_sqrt_lt_zero (addSquaredDifferences 0 a.pitch b.pitch))
    h.pitch
  have hstart := not_mul_lt_zero (not_abs_lt_zero (a.loudnessStart - b.loudnessStart))
    h.loudnessStart
  have hmax := not_mul_lt_zero (not_abs_lt_zero (a.loudnessMax - b.loudnessMax)) h.loudnessMax
  have hduration := not_mul_lt_zero (not_abs_lt_zero (a.duration - b.duration)) h.duration
  have hconfidence := not_mul_lt_zero (not_abs_lt_zero (a.confidence - b.confidence)) h.confidence
  exact not_add_lt_zero (not_add_lt_zero (not_add_lt_zero (not_add_lt_zero
    (not_add_lt_zero htimbre hpitch) hstart) hmax) hduration) hconfidence

/-! ## Positions in the bar -/

section

variable {o : GraphOptions Float} {beats connected : List (Beat Float)} {summary : GraphSummary Float}
  {bar i j : ℕ} {a b : Beat Float}

/-- The index of an accepted beat is its position. -/
theorem value?_index (hcheck : checkBeats beats = .ok ()) (hmax : beats.length ≤ 2 ^ 53)
    (ha : beats[i]? = some a) : value? a.index = some (i : ℚ) := by
  have hi : i < beats.length := (List.getElem?_eq_some_iff.mp ha).1
  exact value?_of_same (same_index_of_checkBeats hcheck ha) (value?_ofNat (by omega))

/-- Beats at different positions of the bar are not connected, if the penalty is not below the
threshold. -/
theorem not_length_lt (hweights : o.weights.NonNegative) (hthreshold : o.threshold ≤ o.phasePenalty)
    (hbar : value? o.beatsPerBar = some (bar : ℚ)) (hpos : 0 < bar)
    (ha : value? a.index = some (i : ℚ)) (hi : i < 2 ^ 53)
    (hb : value? b.index = some (j : ℚ)) (hj : j < 2 ^ 53) (hne : i % bar ≠ j % bar) :
    ¬o.length a b < o.threshold := by
  have hpenalty : barPenalty o.beatsPerBar o.phasePenalty a.index b.index = o.phasePenalty :=
    if_neg (mt (same_remainder_iff ha hb hbar hi hj hpos).mp hne)
  rw [GraphOptions.length, hpenalty]
  exact not_add_lt (not_distance_lt_zero hweights a b) hthreshold

end

end EndlessRemix
