import EndlessRemix.Proofs.Beat.Sequence
import EndlessRemix.Proofs.Number.Order
import EndlessRemix.Proofs.Walk.Playback

/-!
# Spans as stretches of frames

The edges of a span are doubles, but they come from rounding, so inside a buffer they are integers
and the slice of the span is a stretch of frames. The span of a beat that obeys the rules is always
inside the buffer, also where its end is beyond all doubles.
-/

namespace EndlessRemix

open Double

/-- A span has a frame, and all of them are in a buffer of `frameCount` frames. -/
structure Span.Inside (s : Span Float) (frameCount : ℕ) : Prop where
  start_nonneg : 0 ≤ s.start
  start_lt : s.start < s.stop
  stop_le : s.stop ≤ Scalar.ofNat frameCount

/-- A finite edge of a span is an integer: it was rounded, or is one frame after the start, or is
the end of the buffer. -/
lemma integer_of_edge {x y : Float} {n : ℕ} {a b : ℚ} (hn : n < 2 ^ 53)
    (ha : value? (Scalar.round x) = some a) (h0 : 0 ≤ a) (han : a < n)
    (hb : value? (Double.min (Double.max (Scalar.round x + Scalar.ofNat 1) (Scalar.round y))
      (Scalar.ofNat n)) = some b) :
    ∃ j : ℤ, b = j := by
  rcases value?_of_min hb with hb | hb
  · rcases value?_of_max hb with hb | hb
    · obtain ⟨i, rfl⟩ := integer_of_round ha
      obtain ⟨k, rfl⟩ := Int.eq_ofNat_of_zero_le (by exact_mod_cast h0 : 0 ≤ i)
      have hk : k < n := by exact_mod_cast han
      have hnext := value?_add ha value?_one (k := k + 1) (by omega) (by push_cast; rfl)
      exact ⟨(k + 1 : ℕ), Option.some.inj (hb.symm.trans hnext)⟩
    · exact integer_of_round hb
  · exact ⟨n, Option.some.inj (hb.symm.trans (value?_ofNat hn))⟩

/-- The edges of a span inside the buffer are positions of frames, and its slice lies between
them. -/
lemma exists_edges {beat : Beat Float} {rate : Float} {n : ℕ} {s : Span Float} (hn : n < 2 ^ 53)
    (hspan : beat.span rate (Scalar.ofNat n) = .ok s) (h : s.Inside n) :
    ∃ first count : ℕ, value? s.stop = some ((first + count : ℕ) : ℚ)
      ∧ s.slice = ⟨.int first, .int count⟩ ∧ 0 < count ∧ first + count ≤ n := by
  have hcount := value?_ofNat hn
  obtain ⟨a, ha⟩ := exists_value_of_lt value?_zero h.start_nonneg h.start_lt
  obtain ⟨b, hb⟩ := exists_value_of_between ha hcount (le_of_lt h.start_lt) h.stop_le
  have ha0 := (le_iff_of_value value?_zero ha).mp h.start_nonneg
  have hab := (lt_iff_of_value ha hb).mp h.start_lt
  have hbn := (le_iff_of_value hb hcount).mp h.stop_le
  have hedges : (∃ i : ℤ, a = i) ∧ ∃ j : ℤ, b = j := by
    unfold Beat.span at hspan
    dsimp only at hspan
    split_ifs at hspan
    obtain rfl := Except.ok.inj hspan
    exact ⟨integer_of_round ha,
      integer_of_edge hn ha ha0 (hab.trans_le hbn) hb⟩
  obtain ⟨⟨i, rfl⟩, j, rfl⟩ := hedges
  have hi : 0 ≤ i := by exact_mod_cast ha0
  have hij : i < j := by exact_mod_cast hab
  have hjn : j ≤ n := by exact_mod_cast hbn
  obtain ⟨first, rfl⟩ := Int.eq_ofNat_of_zero_le hi
  obtain ⟨count, rfl⟩ : ∃ count : ℕ, j = first + count := ⟨(j - first).toNat, by omega⟩
  have hlength : value? (s.stop - s.start) = some ((count : ℤ) : ℚ) := by
    rw [Int.cast_natCast]
    apply value?_sub hb ha (by omega)
    push_cast
    ring
  refine ⟨first, count, ?_, ?_, by omega, by omega⟩
  · rw [hb]
    push_cast
    rfl
  · rw [Span.slice, whole_of_value ha, whole_of_value hlength]

/-- The span of a beat that is inside the buffer is a stretch of its frames. -/
theorem within_slice {beat : Beat Float} {rate : Float} {n : ℕ} {s : Span Float} (hn : n < 2 ^ 53)
    (hspan : beat.span rate (Scalar.ofNat n) = .ok s) (h : s.Inside n) : s.slice.Within n := by
  obtain ⟨first, count, -, hslice, hpos, hle⟩ := exists_edges hn hspan h
  rw [hslice]
  exact ⟨rfl, rfl, hpos, hle⟩

/-- A span stops where its slice ends. -/
lemma whole_stop {beat : Beat Float} {rate : Float} {n : ℕ} {s : Span Float} (hn : n < 2 ^ 53)
    (hspan : beat.span rate (Scalar.ofNat n) = .ok s) (h : s.Inside n) :
    Scalar.whole s.stop = .int (s.slice.first + s.slice.count : ℕ) := by
  obtain ⟨first, count, hstop, hslice, -, -⟩ := exists_edges hn hspan h
  rw [hslice]
  apply whole_of_value
  rw [hstop, Int.cast_natCast]
  rfl

/-- The start of a timely beat that starts inside the buffer is a frame of it. -/
lemma exists_start {beat : Beat Float} {rate : Float} {n : ℕ} {r : ℚ} (hn : n < 2 ^ 53)
    (hbeat : beat.Timely) (hrate : value? rate = some r) (hpos : 0 < r)
    (hinside : ¬(Scalar.ofNat n : Float) ≤ Scalar.round (beat.start * rate)) :
    ∃ i < n, value? (Scalar.round (beat.start * rate)) = some ((i : ℕ) : ℚ) := by
  have hcount := value?_ofNat hn
  obtain ⟨a, ha⟩ := (isFinite_iff _).mp hbeat.start_finite
  have ha0 := (le_iff_of_value value?_zero ha).mp hbeat.start_nonneg
  rcases mul_nonneg_cases ha ha0 hrate hpos.le with ⟨p, hp, hp0⟩ | hinf
  · have hround := value?_round hp
    obtain ⟨i, hi⟩ := Int.eq_ofNat_of_zero_le (Int.floor_nonneg.mpr (by linarith : 0 ≤ p + 1 / 2))
    rw [hi, Int.cast_natCast] at hround
    rw [le_iff_of_value hcount hround, not_le] at hinside
    exact ⟨i, by exact_mod_cast hinside, hround⟩
  · -- a start beyond all doubles is not inside
    exact absurd (le_of_lt (lt_infinity hcount (unpacked_round_infinity hinf))) hinside

/-- The end of a timely beat is a number at or above zero, or beyond all doubles. -/
lemma stop_nonneg_cases {beat : Beat Float} {rate : Float} {r : ℚ} (hbeat : beat.Timely)
    (hrate : value? rate = some r) (hpos : 0 < r) :
    (∃ q, value? (Scalar.round ((beat.start + beat.duration) * rate)) = some q)
      ∨ unpacked (Scalar.round ((beat.start + beat.duration) * rate)) = .infinity .positive := by
  obtain ⟨a, ha⟩ := (isFinite_iff _).mp hbeat.start_finite
  obtain ⟨d, hd⟩ := (isFinite_iff _).mp hbeat.duration_finite
  have ha0 := (le_iff_of_value value?_zero ha).mp hbeat.start_nonneg
  have hd0 := (lt_iff_of_value value?_zero hd).mp hbeat.duration_pos
  have hproduct : (∃ q, value? ((beat.start + beat.duration) * rate) = some q ∧ 0 ≤ q)
      ∨ unpacked ((beat.start + beat.duration) * rate) = .infinity .positive := by
    rcases atLeast_add ha hd value?_zero (by linarith) with ⟨q, hq, hq0⟩ | hinf
    · exact mul_nonneg_cases hq hq0 hrate hpos.le
    · exact .inr (unpacked_mul_infinity hinf hrate hpos)
  rcases hproduct with ⟨q, hq, -⟩ | hinf
  · exact .inl ⟨_, value?_round hq⟩
  · exact .inr (unpacked_round_infinity hinf)

/-- The span of a timely beat is inside the buffer. -/
theorem inside_of_timely {beat : Beat Float} {rate : Float} {n : ℕ} {s : Span Float} {r : ℚ}
    (hn : n < 2 ^ 53) (hbeat : beat.Timely) (hrate : value? rate = some r) (hpos : 0 < r)
    (hspan : beat.span rate (Scalar.ofNat n) = .ok s) : s.Inside n := by
  have hcount := value?_ofNat hn
  unfold Beat.span at hspan
  dsimp only at hspan
  split_ifs at hspan with hinside
  obtain rfl := Except.ok.inj hspan
  obtain ⟨i, hi, hstart⟩ := exists_start hn hbeat hrate hpos hinside
  have hnext : value? (Scalar.round (beat.start * rate) + Scalar.ofNat 1)
      = some ((i + 1 : ℕ) : ℚ) :=
    value?_add hstart value?_one (by omega) (by push_cast; rfl)
  have hin : (i : ℚ) < n := by exact_mod_cast hi
  have hsucc : (i : ℚ) < ((i + 1 : ℕ) : ℚ) := by exact_mod_cast Nat.lt_succ_self i
  obtain ⟨stop, hstop, hlt, hle⟩ : ∃ stop,
      value? (Double.min (Double.max (Scalar.round (beat.start * rate) + Scalar.ofNat 1)
        (Scalar.round ((beat.start + beat.duration) * rate))) (Scalar.ofNat n)) = some stop
      ∧ (i : ℚ) < stop ∧ stop ≤ n := by
    rcases stop_nonneg_cases hbeat hrate hpos with ⟨c, hc⟩ | hinf
    · exact ⟨_, value?_min (value?_max hnext hc) hcount,
        lt_min (lt_of_lt_of_le hsucc (le_max_left _ _)) hin, min_le_right _ _⟩
    · refine ⟨n, ?_, hin, le_rfl⟩
      rw [Double.max, if_pos (lt_infinity hnext hinf), Double.min, if_neg (not_infinity_lt hinf),
        if_pos (lt_infinity hcount hinf), hcount]
  exact
    { start_nonneg := (le_iff_of_value value?_zero hstart).mpr (Nat.cast_nonneg i)
      start_lt := (lt_iff_of_value hstart hstop).mpr hlt
      stop_le := (le_iff_of_value hstop hcount).mpr hle }

end EndlessRemix
