import EndlessRemix.Proofs.Analysis.Beats
import EndlessRemix.Proofs.Beat.Sequence
import EndlessRemix.Proofs.Number.Accuracy
import EndlessRemix.Walk.Span

/-!
# Times of frames

A time is a frame position divided by the sample rate, so it carries an error. In a buffer that
lasts a million seconds at most the errors are too small to be seen: times of later frames are
later, a beat does not reach into the next one by more than is tolerated, and the frames of a beat
are those that its times came from.
-/

namespace EndlessRemix

open RoundedArithmetic

section

variable {R : Type} [Scalar R] [RoundedArithmetic R]

/-- A sample rate that is a whole number of four bytes, and a number of frames that last a million
seconds at most. -/
structure Timed (sampleRate : R) (rate frames : ℕ) : Prop where
  real_eq : real? sampleRate = some (rate : ℝ)
  pos : 1 ≤ rate
  lt : rate < 2 ^ 32
  frames_le : frames ≤ 2 ^ 40
  seconds_le : frames ≤ 10 ^ 6 * rate

/-- A beat whose times are those of a pair of frame positions, at some index. -/
structure Beat.Derived (beat : Beat R) (sampleRate : R) (index start stop : ℕ) : Prop where
  index_eq : beat.index = Scalar.ofNat index
  start_eq : beat.start = Scalar.ofNat start / sampleRate
  duration_eq : beat.duration = Scalar.ofNat (stop - start) / sampleRate

namespace Timed

variable {sampleRate : R} {rate frames k l : ℕ}

lemma cast_pos (h : Timed sampleRate rate frames) : (0 : ℝ) < rate := by
  exact_mod_cast h.pos

/-- A count is a moderate number. -/
lemma moderate_count (h : Timed sampleRate rate frames) (hk : k ≤ frames) : Moderate (k : ℝ) := by
  have hle := h.frames_le
  rcases Nat.eq_zero_or_pos k with rfl | hpos
  · exact .inl Nat.cast_zero
  · have hlow : (1 : ℝ) ≤ k := by exact_mod_cast hpos
    have hhigh : (k : ℝ) ≤ 2 ^ 40 := by exact_mod_cast hk.trans hle
    exact .inr ⟨le_trans (by norm_num) hlow, hhigh.trans (by norm_num)⟩

/-- Seconds are a moderate number. -/
lemma moderate_seconds (h : Timed sampleRate rate frames) (hk : k ≤ frames) :
    Moderate ((k : ℝ) / rate) := by
  have hrate := h.cast_pos
  have hlt : (rate : ℝ) < 2 ^ 32 := by exact_mod_cast h.lt
  have hone : (1 : ℝ) ≤ rate := by exact_mod_cast h.pos
  rcases Nat.eq_zero_or_pos k with rfl | hpos
  · left
    simp
  · have hlow : (1 : ℝ) ≤ k := by exact_mod_cast hpos
    have hhigh : (k : ℝ) ≤ 2 ^ 40 := by exact_mod_cast hk.trans h.frames_le
    right
    constructor
    · rw [le_div_iff₀ hrate]
      linarith
    · rw [div_le_iff₀ hrate]
      linarith

/-- The time of a frame. -/
lemma roundsTo_time (h : Timed sampleRate rate frames) (hk : k ≤ frames) :
    RoundsTo (Scalar.ofNat k / sampleRate : R) 1 ((k : ℝ) / rate) := by
  have hlt : k < 2 ^ 53 := by
    have := h.frames_le
    omega
  exact roundsTo_div (real?_ofNat hlt) h.real_eq h.cast_pos.ne' (h.moderate_seconds hk)

/-- The time at which a beat ends. -/
lemma roundsTo_end (h : Timed sampleRate rate frames) (hkl : k + l ≤ frames) :
    RoundsTo (Scalar.ofNat k / sampleRate + Scalar.ofNat l / sampleRate : R) 2
      (((k + l : ℕ) : ℝ) / rate) := by
  have hsum : (k : ℝ) / rate + (l : ℝ) / rate = ((k + l : ℕ) : ℝ) / rate := by
    rw [Nat.cast_add, add_div]
  have hend := (h.roundsTo_time (k := k) (by omega)).add (h.roundsTo_time (k := l) (by omega))
    (by omega) (hsum ▸ h.moderate_seconds hkl)
  rwa [hsum] at hend

/-- Up to two errors in a time, its frame is found again. -/
lemma real?_round_mul (h : Timed sampleRate rate frames) {x : R} {n : ℕ} (hn : n ≤ 2)
    (hk : k ≤ frames) (hx : RoundsTo x n ((k : ℝ) / rate)) :
    real? (Scalar.round (x * sampleRate)) = some (k : ℝ) := by
  have hcancel : (k : ℝ) / rate * rate = k := div_mul_cancel₀ _ h.cast_pos.ne'
  have hframe := hx.mul h.real_eq (by omega) h.cast_pos.le (hcancel.symm ▸ h.moderate_count hk)
  rw [hcancel] at hframe
  exact hframe.real?_round (by omega) (hk.trans h.frames_le)

/-- Times of different frames are apart, errors included. -/
lemma time_lt (h : Timed sampleRate rate frames) (hkl : k < l) (hl : l ≤ frames) {x y : R}
    (hx : RoundsTo x 1 ((k : ℝ) / rate)) (hy : RoundsTo y 1 ((l : ℝ) / rate)) : ¬y ≤ x := by
  obtain ⟨a, ha, hwithin⟩ := hx
  obtain ⟨b, hb, hwithin'⟩ := hy
  have hrate := h.cast_pos
  have hhigh := (hwithin.bounds (by omega) (by positivity)).2
  have hlow := (hwithin'.bounds (by omega) (by positivity)).1
  have hnext : (k : ℝ) + 1 ≤ l := by exact_mod_cast hkl
  have hle : (l : ℝ) ≤ 2 ^ 40 := by exact_mod_cast hl.trans h.frames_le
  rw [le_iff hb ha, not_le]
  -- a whole frame lies between them, and up to `2 ^ 40` frames the errors are far smaller
  have hgap : (k : ℝ) + k / 2 ^ 51 < l - l / 2 ^ 51 := by linarith
  calc a ≤ (k : ℝ) / rate + k / rate / 2 ^ 51 := hhigh
    _ = (k + k / 2 ^ 51) / rate := by ring
    _ < (l - l / 2 ^ 51) / rate := div_lt_div_of_pos_right hgap hrate
    _ = (l : ℝ) / rate - l / rate / 2 ^ 51 := by ring
    _ ≤ b := hlow

/-- What a beat ends too late by is less than what is tolerated. -/
lemma not_overlap (h : Timed sampleRate rate frames) (hkl : k ≤ l) (hl : l ≤ frames) {x y : R}
    (hx : RoundsTo x 2 ((k : ℝ) / rate)) (hy : RoundsTo y 1 ((l : ℝ) / rate)) :
    ¬y + overlapTolerance < x := by
  have hrate := h.cast_pos
  have htolerance : RoundsTo (overlapTolerance : R) 1 (1 / 10 ^ 9) := by
    obtain ⟨r, hr, hnear⟩ := near_billionth (R := R)
    push_cast at hnear
    exact ⟨r, hr, (Within.refl _).near (by norm_num) hnear⟩
  have hmoderate : Moderate ((l : ℝ) / rate + 1 / 10 ^ 9) := by
    have hl0 : (0 : ℝ) ≤ (l : ℝ) / rate := by positivity
    rcases h.moderate_seconds hl with h0 | ⟨-, hmax⟩
    · rw [h0]
      norm_num [Moderate]
    · refine .inr ⟨by linarith, ?_⟩
      have hsmall : (l : ℝ) / rate ≤ 2 ^ 40 := by
        rw [div_le_iff₀ hrate]
        have hone : (1 : ℝ) ≤ rate := by exact_mod_cast h.pos
        have hle : (l : ℝ) ≤ 2 ^ 40 := by exact_mod_cast hl.trans h.frames_le
        linarith
      linarith
  obtain ⟨a, ha, hwithin⟩ := hx
  obtain ⟨b, hb, hwithin'⟩ := hy.add htolerance (by omega) hmoderate
  have hhigh := (hwithin.bounds (by omega) (by positivity)).2
  have hlow := (hwithin'.bounds (by omega) (by positivity)).1
  -- a million seconds is what the tolerance allows for
  have hseconds : (k : ℝ) / rate ≤ 10 ^ 6 := by
    rw [div_le_iff₀ hrate]
    exact_mod_cast (hkl.trans hl).trans h.seconds_le
  have horder : (k : ℝ) / rate ≤ (l : ℝ) / rate := by gcongr
  rw [lt_iff hb ha, not_lt]
  linarith

end Timed

/-! ## Beats of a sequence -/

namespace Beat.Derived

variable {sampleRate : R} {rate frames index start stop : ℕ} {beat : Beat R}

/-- The time at which a beat starts. -/
lemma roundsTo_start (h : beat.Derived sampleRate index start stop)
    (ht : Timed sampleRate rate frames) (hle : start ≤ frames) :
    RoundsTo beat.start 1 ((start : ℝ) / rate) := by
  rw [h.start_eq]
  exact ht.roundsTo_time hle

/-- The time at which a beat ends. -/
lemma roundsTo_stop (h : beat.Derived sampleRate index start stop)
    (ht : Timed sampleRate rate frames) (horder : start ≤ stop) (hle : stop ≤ frames) :
    RoundsTo (beat.start + beat.duration) 2 ((stop : ℝ) / rate) := by
  have hstop : start + (stop - start) = stop := by omega
  have hend := ht.roundsTo_end (k := start) (l := stop - start) (by omega)
  rw [hstop] at hend
  rw [h.start_eq, h.duration_eq]
  exact hend

/-- A beat by itself obeys the rules. -/
theorem check_eq (h : beat.Derived sampleRate index start stop)
    (ht : Timed sampleRate rate frames) (hindex : index ≤ start) (horder : start < stop)
    (hle : stop ≤ frames) : beat.check index = .ok () := by
  have hframes := ht.frames_le
  have hposition : real? (Scalar.ofNat index : R) = some (index : ℝ) := real?_ofNat (by omega)
  have hsame : Scalar.same beat.index (Scalar.ofNat index) = true := by
    rw [h.index_eq, Scalar.same, Bool.and_self, decide_eq_true_iff]
    exact (le_iff hposition hposition).mpr le_rfl
  have hstart := h.roundsTo_start ht (by omega)
  have hduration : RoundsTo beat.duration 1 (((stop - start : ℕ) : ℝ) / rate) := by
    rw [h.duration_eq]
    exact ht.roundsTo_time (by omega)
  have hstart0 : 0 ≤ beat.start := by
    obtain ⟨r, hr, hwithin⟩ := hstart
    exact (le_iff real?_zero hr).mpr (hwithin.nonneg (by positivity))
  have hduration0 : 0 < beat.duration := by
    have hrate := ht.cast_pos
    have hlength : (1 : ℝ) ≤ ((stop - start : ℕ) : ℝ) := by exact_mod_cast (by omega)
    obtain ⟨r, hr, hwithin⟩ := hduration
    rw [lt_iff real?_zero hr]
    exact lt_of_lt_of_le (by positivity) hwithin.1
  exact Beat.check_eq_ok.mpr
    ⟨hsame, hduration0, hduration.isFinite, hstart0, hstart.isFinite⟩

/-- A beat after another one obeys the rules. -/
theorem checkNext_eq {previous : Beat R} {index' start' stop' : ℕ}
    (h : beat.Derived sampleRate index start stop)
    (hprevious : previous.Derived sampleRate index' start' stop')
    (ht : Timed sampleRate rate frames) (horder : start < stop) (hle : stop ≤ frames)
    (horder' : start' < stop') (hafter : stop' ≤ start) (position : ℕ) :
    previous.checkNext position beat = .ok () := by
  have hstart := h.roundsTo_start ht (by omega)
  have hlater := ht.time_lt (k := start') (l := start) (by omega) (by omega)
    (hprevious.roundsTo_start ht (by omega)) hstart
  have hapart := ht.not_overlap hafter (by omega)
    (hprevious.roundsTo_stop ht horder'.le (by omega)) hstart
  unfold Beat.checkNext
  rw [if_neg hlater, if_neg hapart]

/-- The frames of a beat are those that its times came from. A beat has two frames at least: the
time of the frame after the first one is not exact. -/
theorem span_eq (h : beat.Derived sampleRate index start stop)
    (ht : Timed sampleRate rate frames) (horder : start + 2 ≤ stop) (hle : stop ≤ frames) :
    ∃ span, beat.span sampleRate (Scalar.ofNat frames) = .ok span
      ∧ real? span.start = some (start : ℝ) ∧ real? span.stop = some (stop : ℝ) := by
  have hframes := ht.frames_le
  have hcount : real? (Scalar.ofNat frames : R) = some (frames : ℝ) := real?_ofNat (by omega)
  have hfirst := ht.real?_round_mul (by omega) (by omega) (h.roundsTo_start ht (by omega))
  have hlast := ht.real?_round_mul (by omega) hle (h.roundsTo_stop ht (by omega) hle)
  have hinside : ¬(Scalar.ofNat frames : R) ≤ Scalar.round (beat.start * sampleRate) := by
    rw [le_iff hcount hfirst, not_le]
    exact_mod_cast (by omega : start < frames)
  obtain ⟨next, hnext, hnear⟩ : ∃ next,
      real? (Scalar.round (beat.start * sampleRate) + 1) = some next ∧ Near next (start + 1 : ℝ) := by
    refine near_add hfirst real?_one ?_
    have hmoderate := ht.moderate_count (k := start + 1) (by omega)
    rw [Nat.cast_add, Nat.cast_one] at hmoderate
    exact hmoderate.inRange (by omega) (.refl _)
  -- the one frame that a span has at least plays no part, even if its end is a rounded sum
  have hbefore : next ≤ stop := by
    have hbound := (abs_le.mp hnear).2
    rw [abs_of_nonneg (by positivity)] at hbound
    have hstart : (start : ℝ) + 2 ≤ stop := by exact_mod_cast horder
    have hstop : (stop : ℝ) ≤ 2 ^ 40 := by exact_mod_cast hle.trans hframes
    linarith
  have hstop : (stop : ℝ) ≤ frames := by exact_mod_cast hle
  refine ⟨_, if_neg hinside, hfirst, ?_⟩
  have hend := real?_min (real?_max hnext hlast) hcount
  rwa [max_eq_right hbefore, min_eq_left hstop] at hend

end Beat.Derived

/-! ## Sequences of beats -/

variable {sampleRate : R} {rate frames : ℕ}

/-- Beats that follow one another obey the rules after the first of them. -/
lemma checkBeatsAfter_of_derived (ht : Timed sampleRate rate frames) {previous : Beat R}
    {index start stop : ℕ} {bounds : List (ℕ × ℕ)} {beats : List (Beat R)}
    (hprevious : previous.Derived sampleRate index start stop) (hindex : index ≤ start)
    (hbounds : ∀ p ∈ (start, stop) :: bounds, p.1 < p.2 ∧ p.2 ≤ frames)
    (hpairs : ((start, stop) :: bounds).Pairwise fun p q => p.2 ≤ q.1)
    (hbeats : List.Forall₂ (fun (p : (ℕ × ℕ) × ℕ) beat =>
      beat.Derived sampleRate p.2 p.1.1 p.1.2) (bounds.zipIdx (index + 1)) beats) :
    checkBeatsAfter previous (index + 1) beats = .ok () := by
  induction bounds generalizing previous index start stop beats with
  | nil =>
    rw [List.zipIdx_nil, List.forall₂_nil_left_iff] at hbeats
    rw [hbeats, checkBeatsAfter]
  | cons p bounds ih =>
    rw [List.zipIdx_cons, List.forall₂_cons_left_iff] at hbeats
    obtain ⟨beat, rest, hbeat, hrest, rfl⟩ := hbeats
    obtain ⟨hfirst, hpairs⟩ := List.pairwise_cons.mp hpairs
    have hprev := hbounds _ List.mem_cons_self
    have hp := hbounds p (List.mem_cons_of_mem _ List.mem_cons_self)
    have hafter := hfirst p List.mem_cons_self
    dsimp only at hprev hafter hbeat
    have hrank : index + 1 ≤ p.1 := by omega
    rw [checkBeatsAfter, hbeat.check_eq ht hrank hp.1 hp.2,
      hbeat.checkNext_eq hprevious ht hp.1 hp.2 hprev.1 hafter]
    exact ih hbeat hrank (fun q hq => hbounds q (List.mem_cons_of_mem _ hq)) hpairs hrest

/-- Beats that follow one another obey the rules. -/
theorem checkBeats_of_derived (ht : Timed sampleRate rate frames) {bounds : List (ℕ × ℕ)}
    {beats : List (Beat R)} (hbounds : ∀ p ∈ bounds, p.1 < p.2 ∧ p.2 ≤ frames)
    (hpairs : bounds.Pairwise fun p q => p.2 ≤ q.1)
    (hbeats : List.Forall₂ (fun (p : (ℕ × ℕ) × ℕ) beat =>
      beat.Derived sampleRate p.2 p.1.1 p.1.2) bounds.zipIdx beats) :
    checkBeats beats = .ok () := by
  cases bounds with
  | nil =>
    rw [List.zipIdx_nil, List.forall₂_nil_left_iff] at hbeats
    rw [hbeats, checkBeats]
  | cons p bounds =>
    rw [List.zipIdx_cons, List.forall₂_cons_left_iff] at hbeats
    obtain ⟨beat, rest, hbeat, hrest, rfl⟩ := hbeats
    have hp := hbounds p List.mem_cons_self
    rw [checkBeats, hbeat.check_eq ht (Nat.zero_le _) hp.1 hp.2]
    exact checkBeatsAfter_of_derived ht hbeat (Nat.zero_le _) hbounds hpairs hrest

end

end EndlessRemix
