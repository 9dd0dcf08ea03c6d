import EndlessRemix.Proofs.Walk.Overshoot

/-!
# Playback in order

Where no decision is a jump the draws have no say: the walk goes from beat to beat, and after the
last one to the first, until the target is reached. Over spans that lie end to end it plays the
stretch that they cover, over and over, wherever the target cuts it.
-/

namespace EndlessRemix

variable {R σ : Type}

/-! ## Rounds -/

/-- The beats of a number of visits that go around `count` beats. -/
def rounds (count visits : ℕ) : List ℕ := (List.range visits).map (· % count)

/-- The frames that a number of visits around all slices play. -/
def roundFrames (slices : Array Slice) (visits : ℕ) : ℕ :=
  ((rounds slices.size visits).map (countAt slices)).sum

lemma length_rounds (count visits : ℕ) : (rounds count visits).length = visits := by
  simp [rounds]

lemma rounds_succ (count visits : ℕ) :
    rounds count (visits + 1) = rounds count visits ++ [visits % count] := by
  simp [rounds, List.range_succ]

lemma getElem?_rounds {count visits k : ℕ} (h : k < visits) :
    (rounds count visits)[k]? = some (k % count) := by
  simp [rounds, h]

lemma take_rounds {count visits k : ℕ} (h : k ≤ visits) :
    (rounds count visits).take k = rounds count k := by
  rw [rounds, rounds, ← List.map_take, List.take_range, min_eq_left h]

section

variable {slices : Array Slice}

lemma roundFrames_succ (slices : Array Slice) (visits : ℕ) :
    roundFrames slices (visits + 1)
      = roundFrames slices visits + countAt slices (visits % slices.size) := by
  simp [roundFrames, rounds_succ]

/-- Before a visit, the path has played as many frames as the visits up to it do. -/
lemma amountBefore_rounds {visits k : ℕ} (h : k ≤ visits) :
    amountBefore (countAt slices) (rounds slices.size visits) k = roundFrames slices k := by
  rw [amountBefore, take_rounds h, roundFrames]

lemma roundFrames_mono (slices : Array Slice) : Monotone (roundFrames slices) :=
  monotone_nat_of_le_succ fun visits => by
    rw [roundFrames_succ]
    exact Nat.le_add_right _ _

/-- Every round plays the same frames. -/
lemma roundFrames_add (slices : Array Slice) (visits : ℕ) :
    roundFrames slices (slices.size + visits)
      = roundFrames slices slices.size + roundFrames slices visits := by
  induction visits with
  | zero => rfl
  | succ visits ih =>
    rw [← Nat.add_assoc, roundFrames_succ, ih, roundFrames_succ, Nat.add_mod_left, Nat.add_assoc]

/-- Whole rounds come before the visits of the last one. -/
theorem roundFrames_eq (slices : Array Slice) (visits : ℕ) :
    roundFrames slices visits = visits / slices.size * roundFrames slices slices.size
      + roundFrames slices (visits % slices.size) := by
  have hrounds : ∀ q r, roundFrames slices (slices.size * q + r)
      = q * roundFrames slices slices.size + roundFrames slices r := by
    intro q r
    induction q with
    | zero => simp
    | succ q ih => rw [Nat.mul_succ, Nat.add_right_comm, Nat.add_comm, roundFrames_add, ih]; ring
  rw [← hrounds, Nat.div_add_mod]

/-- Every visit plays a frame. -/
lemma le_roundFrames (hpos : 0 < slices.size)
    (hcount : ∀ s ∈ slices, s.length = .int s.count ∧ 0 < s.count) (visits : ℕ) :
    visits ≤ roundFrames slices visits := by
  induction visits with
  | zero => exact Nat.zero_le _
  | succ visits ih =>
    have hframe := countAt_pos hcount (Nat.mod_lt visits hpos)
    rw [roundFrames_succ]
    omega

/-- A target is reached first after some visit, and there are no more of them than it has frames. -/
lemma exists_rounds (hpos : 0 < slices.size)
    (hcount : ∀ s ∈ slices, s.length = .int s.count ∧ 0 < s.count) (target : ℕ) :
    ∃ visits ≤ target, target ≤ roundFrames slices visits
      ∧ ∀ k < visits, roundFrames slices k < target := by
  have hreach : ∃ visits, target ≤ roundFrames slices visits :=
    ⟨target, le_roundFrames hpos hcount target⟩
  refine ⟨Nat.find hreach, ?_, Nat.find_spec hreach, ?_⟩
  · exact Nat.find_min' hreach (le_roundFrames hpos hcount target)
  · intro k hk
    exact not_le.mp (Nat.find_min hreach hk)

end

/-! ## A walk without jumps -/

/-- The step from one visit around the beats to the next goes around where a round is over. -/
lemma wrapped_round {count : ℕ} (hpos : 0 < count) (k : ℕ) :
    wrapped count (k % count + 1) = (k + 1) % count
      ∧ k / count + (decide (count ≤ k % count + 1)).toNat = (k + 1) / count := by
  have hlt := Nat.mod_lt k hpos
  constructor
  · rw [wrapped_succ hlt, Nat.mod_add_mod]
  · -- the step leaves the beats exactly where it completes a round
    have hdvd : count ∣ k + 1 ↔ count ≤ k % count + 1 := by
      rw [Nat.dvd_iff_mod_eq_zero, ← Nat.mod_add_mod]
      constructor
      · intro hzero
        by_contra hle
        rw [Nat.mod_eq_of_lt (not_le.mp hle)] at hzero
        exact Nat.succ_ne_zero _ hzero
      · intro hle
        rw [le_antisymm hlt hle, Nat.mod_self]
    rw [Nat.succ_div]
    by_cases h : count ≤ k % count + 1
    · rw [decide_eq_true h, if_pos (hdvd.mpr h)]
      rfl
    · rw [decide_eq_false h, if_neg (mt hdvd.mp h)]
      rfl

/-- Where the next visit is, after a number of visits around `count` beats. -/
def roundPosition (count : ℕ) : ℕ → ℕ
  | 0 => 0
  | k + 1 => k % count + 1

/-- A walk after a number of visits around the beats. -/
def Walker.around (plan : WalkPlan R σ) (source : σ) (visits : ℕ) : Walker σ where
  next := some (roundPosition plan.slices.size visits)
  emitted := roundFrames plan.slices visits
  path := (rounds plan.slices.size visits).toArray
  jumps := 0
  wraparounds := (visits - 1) / plan.slices.size
  source := plan.draws.after visits source

section

variable [Scalar R] {plan : WalkPlan R σ} {source : σ}

/-- No draw decides for a jump. -/
def WalkPlan.Jumpless (plan : WalkPlan R σ) (source : σ) : Prop :=
  ∀ m here, plan.decision source m here = false

/-- Where nothing jumps, each visit is the next one around the beats. -/
lemma Walker.visits_around (hjumpless : plan.Jumpless source) (hpos : 0 < plan.slices.size)
    (k : ℕ) : (Walker.around plan source k).Visits plan (Walker.around plan source (k + 1)) := by
  have hwrapped : wrapped plan.slices.size (roundPosition plan.slices.size k) = k % plan.slices.size
      ∧ (k - 1) / plan.slices.size
          + (decide (plan.slices.size ≤ roundPosition plan.slices.size k)).toNat
        = k / plan.slices.size := by
    cases k with
    | zero => simp [roundPosition, wrapped, hpos.ne']
    | succ k => exact wrapped_round hpos k
  refine ⟨roundPosition plan.slices.size k,
    { Walker.around plan source (k + 1) with emitted := roundFrames plan.slices k }, rfl, ?_, ?_⟩
  · have hsource : (Walker.around plan source k).source = plan.draws.after k source := rfl
    rw [Walker.arrive_eq, hwrapped.1]
    refine (Walker.leave_eq (m := k) (by exact hsource) _).trans ?_
    rw [hjumpless, if_neg Bool.false_ne_true]
    unfold Walker.around
    rw [hwrapped.2, rounds_succ, List.push_toArray]
    rfl
  · rw [Walker.arrive_eq, hwrapped.1, Walker.around, roundFrames_succ]

variable {target : ℕ}

/-- A run goes on around the beats until the visit that reaches the target. -/
theorem Walker.run_around (hjumpless : plan.Jumpless source) (hpos : 0 < plan.slices.size)
    (hcount : ∀ s ∈ plan.slices, s.length = .int s.count ∧ 0 < s.count) {last : ℕ}
    (hreached : target ≤ roundFrames plan.slices last)
    (hbefore : ∀ k < last, roundFrames plan.slices k < target) {k fuel : ℕ} (hk : k ≤ last)
    (hfuel : last ≤ k + fuel) :
    Walker.run plan target fuel (Walker.around plan source k)
      = .ok (Walker.around plan source last).soFar := by
  induction fuel generalizing k with
  | zero =>
    -- the fuel ends no sooner than the visits do
    obtain rfl : k = last := le_antisymm hk hfuel
    rfl
  | succ fuel ih =>
    rcases hk.lt_or_eq with hlt | rfl
    · rw [Walker.run_of_visits hpos hcount (hbefore k hlt)
        (Walker.visits_around hjumpless hpos k)]
      exact ih hlt (by omega)
    · exact Walker.run_of_le hreached _

/-- Where nothing jumps, a walk is as many visits around the beats as its target takes. -/
theorem walk_around (hjumpless : plan.Jumpless source) (hpos : 0 < plan.slices.size)
    (hcount : ∀ s ∈ plan.slices, s.length = .int s.count ∧ 0 < s.count) {last : ℕ}
    (hlast : last ≤ target) (hreached : target ≤ roundFrames plan.slices last)
    (hbefore : ∀ k < last, roundFrames plan.slices k < target) :
    walk plan target source = .ok (Walker.around plan source last).soFar := by
  have hstart : Walker.start source = Walker.around plan source 0 := by
    simp [Walker.start, Walker.around, roundPosition, roundFrames, rounds, Draws.after]
  have hfuel := plan.le_visits target
  rw [walk, hstart]
  exact Walker.run_around hjumpless hpos hcount hreached hbefore (Nat.zero_le _) (by omega)

end

/-! ## Spans end to end -/

/-- Spans that cover the first `frames` frames: the first starts with them, each starts where the
one before it stops, and the last stops after them. The edges of spans are positions of frames. -/
structure Tiles (spans : List (Span Float)) (frames : ℕ) : Prop where
  first : ∀ s, spans.head? = some s → Scalar.whole s.start = .int 0
  next : ∀ i s after, spans[i]? = some s → spans[i + 1]? = some after →
    Scalar.whole s.stop = Scalar.whole after.start
  last : ∀ s, spans.getLast? = some s → Scalar.whole s.stop = .int frames

section

variable {buffer : SampleBuffer Float} {beats : List (Beat Float)} {spans : List (Span Float)}
  {frames : ℕ}

lemma size_slicesOf (spans : List (Span Float)) : (slicesOf spans).size = spans.length := by
  rw [slicesOf, List.size_toArray, List.length_map]

/-- The frames of the spans before one are those of the visits before it. -/
lemma roundFrames_span {i : ℕ} {s : Span Float} (h : spans[i]? = some s) :
    roundFrames (slicesOf spans) (i + 1) = roundFrames (slicesOf spans) i + s.slice.count := by
  have hi : i < spans.length := (List.getElem?_eq_some_iff.mp h).1
  rw [roundFrames_succ, size_slicesOf, Nat.mod_eq_of_lt hi, countAt_slicesOf h]

/-- Among spans end to end, each starts after the frames of those before it. -/
lemma Tiles.first_eq (htiles : Tiles spans frames) (hspans : spansOf buffer beats = .ok spans)
    (hframes : buffer.frameCount < 2 ^ 53) (hinside : ∀ s ∈ spans, s.Inside buffer.frameCount)
    {i : ℕ} {s : Span Float} (h : spans[i]? = some s) :
    s.slice.first = roundFrames (slicesOf spans) i := by
  induction i generalizing s with
  | zero =>
    have hstart := htiles.first s (List.head?_eq_getElem? ▸ h)
    rw [Slice.first, Span.slice, hstart]
    rfl
  | succ i ih =>
    obtain ⟨hlt, -⟩ := List.getElem?_eq_some_iff.mp h
    obtain ⟨before, hbefore⟩ : ∃ before, spans[i]? = some before :=
      ⟨spans[i], List.getElem?_eq_getElem (by omega)⟩
    have hmem := List.mem_of_getElem? hbefore
    obtain ⟨beat, hspan⟩ := exists_beat_of_span hspans hmem
    -- the span before it is inside the buffer, so it stops as many frames after its start as it has
    have hstop := whole_stop hframes hspan (hinside _ hmem)
    rw [htiles.next i before s hbefore h] at hstop
    rw [Slice.first, Span.slice, hstop, roundFrames_span hbefore, ← ih hbefore]
    rfl

/-- Spans end to end are played once in a round. -/
lemma Tiles.roundFrames_eq (htiles : Tiles spans frames) (hspans : spansOf buffer beats = .ok spans)
    (hframes : buffer.frameCount < 2 ^ 53) (hinside : ∀ s ∈ spans, s.Inside buffer.frameCount)
    (hne : spans ≠ []) : roundFrames (slicesOf spans) spans.length = frames := by
  obtain ⟨n, hn⟩ : ∃ n, spans.length = n + 1 :=
    Nat.exists_eq_succ_of_ne_zero (mt List.length_eq_zero_iff.mp hne)
  obtain ⟨s, hs⟩ : ∃ s, spans[n]? = some s := ⟨spans[n], List.getElem?_eq_getElem (by omega)⟩
  have hmem := List.mem_of_getElem? hs
  obtain ⟨beat, hspan⟩ := exists_beat_of_span hspans hmem
  have hstop := whole_stop hframes hspan (hinside _ hmem)
  have hlast : spans.getLast? = some s := by
    rw [List.getLast?_eq_getElem?, hn, Nat.add_sub_cancel, hs]
  rw [htiles.last s hlast] at hstop
  have hend : frames = s.slice.first + s.slice.count := by
    exact_mod_cast Whole.int.inj hstop
  rw [hn, roundFrames_span hs, hend, htiles.first_eq hspans hframes hinside hs]

/-- The frame at a place of a visit around spans end to end is the frame that the place has when the
stretch is repeated. -/
lemma Tiles.place_eq (htiles : Tiles spans frames) (hspans : spansOf buffer beats = .ok spans)
    (hframes : buffer.frameCount < 2 ^ 53) (hinside : ∀ s ∈ spans, s.Inside buffer.frameCount)
    {k f : ℕ} {s : Span Float} (h : spans[k % spans.length]? = some s)
    (hle : roundFrames (slicesOf spans) k ≤ f)
    (hlt : f < roundFrames (slicesOf spans) k + s.slice.count) :
    s.slice.first + (f - roundFrames (slicesOf spans) k) = f % frames := by
  have hmod : k % spans.length < spans.length := (List.getElem?_eq_some_iff.mp h).1
  have hne : spans ≠ [] := List.length_pos_iff.mp (by omega)
  have hround := htiles.roundFrames_eq hspans hframes hinside hne
  have hfirst := htiles.first_eq hspans hframes hinside h
  have hstop : s.slice.first + s.slice.count ≤ frames := by
    rw [hfirst, ← roundFrames_span h, ← hround]
    exact roundFrames_mono _ hmod
  -- whole rounds have been played before, and in this round the spans before this one
  have hbefore := EndlessRemix.roundFrames_eq (slicesOf spans) k
  rw [size_slicesOf, hround, ← hfirst] at hbefore
  obtain ⟨d, rfl⟩ := Nat.exists_eq_add_of_le hle
  have hplace : roundFrames (slicesOf spans) k + d
      = s.slice.first + d + frames * (k / spans.length) := by
    rw [hbefore, Nat.mul_comm frames]
    omega
  rw [Nat.add_sub_cancel_left, hplace, Nat.add_mul_mod_self_left, Nat.mod_eq_of_lt (by omega)]

/-- Visits around spans end to end play the stretch that they cover, over and over. -/
theorem Tiles.getElem?_renderChannel (htiles : Tiles spans frames)
    (hspans : spansOf buffer beats = .ok spans) (hframes : buffer.frameCount < 2 ^ 53)
    (hinside : ∀ s ∈ spans, s.Inside buffer.frameCount) {channel : Array Sample}
    (hchannel : ∀ s ∈ slicesOf spans, s.Within channel.size) (hpos : 0 < spans.length)
    {last target f : ℕ} (hreached : target ≤ roundFrames (slicesOf spans) last) (hf : f < target) :
    (renderChannel (slicesOf spans) (rounds (slicesOf spans).size last).toArray target channel)[f]?
      = channel[f % frames]? := by
  obtain ⟨k, here, hk, hle, hlt⟩ := exists_part (hf.trans_le hreached)
  have hlast : k < last := by
    rw [← length_rounds (slicesOf spans).size last]
    exact (List.getElem?_eq_some_iff.mp hk).1
  obtain rfl : k % (slicesOf spans).size = here :=
    Option.some.inj ((getElem?_rounds hlast).symm.trans hk)
  obtain ⟨s, hs⟩ : ∃ s, spans[k % spans.length]? = some s :=
    ⟨_, List.getElem?_eq_getElem (Nat.mod_lt k hpos)⟩
  have hslice : (slicesOf spans)[k % (slicesOf spans).size]? = some s.slice := by
    rw [size_slicesOf]
    exact getElem?_slicesOf hs
  have hplayed : (renderChannel (slicesOf spans) (rounds (slicesOf spans).size last).toArray target
      channel)[f]? = channel[s.slice.first + (f - amountBefore (countAt (slicesOf spans))
        (rounds (slicesOf spans).size last) k)]? := by
    rw [← List.getElem?_toArray] at hk
    exact EndlessRemix.getElem?_renderChannel hchannel hreached hf hk hslice hle hlt
  rw [amountBefore_rounds hlast.le] at hle hlt hplayed
  rw [size_slicesOf, countAt_slicesOf hs] at hlt
  rw [hplayed, htiles.place_eq hspans hframes hinside hs hle hlt]

end

/-! ## Tracks without jumps -/

/-- A track of `frames` frames that visits the beats in order, after the last beat the first: it
never jumps, and goes around each time that a round is over. Where the spans lie end to end, every
channel of the output repeats the stretch that they cover. -/
structure PlaysInOrder (buffer output : SampleBuffer Float) (spans : List (Span Float))
    (report : TrackReport Float) (frames : ℕ) : Prop where
  target : Scalar.whole report.target = .int frames
  path : ∀ k < report.path.size, report.path[k]? = some (k % spans.length)
  jumps : report.jumps = 0
  wraparounds : report.wraparounds = (report.path.size - 1) / spans.length
  plays : Plays buffer output spans report.path frames
  repeats : ∀ stretch, Tiles spans stretch → ∀ (c : ℕ) (channel out : Array Sample),
    buffer.channels[c]? = some channel → output.channels[c]? = some out →
    ∀ f < frames, out[f]? = channel[f % stretch]?

section

variable {buffer : SampleBuffer Float} {beats : List (Beat Float)} {spans : List (Span Float)}
  {t : TrackOptions Float}

/-- A probability of zero or a lack of neighbors keeps draws at or above zero from deciding for a
jump. -/
lemma jumpless_planOf {draws : Draws Float σ} {source : σ} {p : Float}
    (hdraws : ∀ m, 0 ≤ draws.value m source ∧ draws.value m source < 1) (hlow : 0 ≤ p)
    (hnever : p ≤ 0 ∨ ∀ beat ∈ beats, beat.neighbors = #[]) :
    (planOf beats spans p draws).Jumpless source := by
  intro m here
  rw [WalkPlan.decision, decide_eq_false]
  rintro ⟨hdraw, hsize⟩
  rcases hnever with hzero | hempty
  · obtain ⟨q, hq⟩ := Double.exists_value_of_lt Double.value?_zero (hdraws m).1 (hdraws m).2
    obtain ⟨b, hb⟩ :=
      Double.exists_value_of_between Double.value?_zero Double.value?_zero hlow hzero
    have hq0 := (Double.le_iff_of_value Double.value?_zero hq).mp (hdraws m).1
    have hb0 := (Double.le_iff_of_value hb Double.value?_zero).mp hzero
    have hlt := (Double.lt_iff_of_value hq hb).mp hdraw
    linarith
  · rw [neighborsAt_planOf] at hsize
    cases hbeat : beats[here]? with
    | none =>
      rw [hbeat] at hsize
      exact lt_irrefl 0 hsize
    | some beat =>
      rw [hbeat, Option.map_some, Option.getD_some, hempty beat (List.mem_of_getElem? hbeat)]
        at hsize
      exact lt_irrefl 0 hsize

/-- A walk around the beats that reaches its target gives a track that plays them in order. -/
lemma playsInOrder_around (draws : Draws Float σ) (source : σ) (p : Float) {target : Float}
    {frames last : ℕ}
    (hbuffer : buffer.check = .ok ()) (hframes : buffer.frameCount < 2 ^ 53) (hbeats : beats ≠ [])
    (hspans : spansOf buffer beats = .ok spans) (hinside : ∀ s ∈ spans, s.Inside buffer.frameCount)
    (htarget : Scalar.whole target = .int frames)
    (hreached : frames ≤ roundFrames (slicesOf spans) last) :
    let track := trackOf buffer (planOf beats spans p draws) frames target
      (Walker.around (planOf beats spans p draws) source last).soFar
    PlaysInOrder buffer track.output spans track.report frames := by
  have hwithin := within_slicesOf hframes hspans hinside
  have hsize := size_slicesOf spans
  have hpos : 0 < (slicesOf spans).size := by
    rw [hsize, ← (forall₂_spansOf hspans).length_eq]
    exact List.length_pos_iff.mpr hbeats
  have hpath : ∀ {k}, k < last →
      (rounds (slicesOf spans).size last).toArray[k]? = some (k % spans.length) := by
    intro k hk
    rw [List.getElem?_toArray, getElem?_rounds hk, hsize]
  have hlength : (rounds (slicesOf spans).size last).toArray.size = last := length_rounds _ _
  constructor
  · exact htarget
  · intro k hk
    exact hpath (hk.trans_eq hlength)
  · rfl
  · show (last - 1) / (slicesOf spans).size
      = ((rounds (slicesOf spans).size last).toArray.size - 1) / spans.length
    rw [hlength, hsize]
  · refine plays_trackOf hbuffer hwithin ?_ hreached
    intro here hmem
    obtain ⟨k, -, rfl⟩ := List.mem_map.mp (Array.mem_toList_iff.mpr hmem)
    exact Nat.mod_lt k hpos
  · intro stretch htiles c channel out hc hout f hf
    have hchannel : ∀ s ∈ slicesOf spans, s.Within channel.size := by
      rw [size_of_check hbuffer channel (List.mem_of_getElem? hc)]
      exact hwithin
    rw [eq_renderChannel_of_trackOf hc hout]
    exact htiles.getElem?_renderChannel hspans hframes hinside hchannel (hsize ▸ hpos) hreached hf

/-- Playback in order. Over beats whose spans are inside the buffer, a track whose branch
probability is zero or whose beats have no neighbors plays the beats in order, and the draws have no
say: whatever is drawn in `[0, 1)`, the output and the report are the same, and one value is drawn
for every visit. There is no track only if the probability is not in `[0, 1]`, if the buffer does
not pass its check, or if the target is below zero or longer than any list in the memory. -/
theorem generateTrack_plays_in_order [Memory] (hframes : buffer.frameCount < 2 ^ 53)
    (hbeats : beats ≠ []) (hspans : spansOf buffer beats = .ok spans)
    (hinside : ∀ s ∈ spans, s.Inside buffer.frameCount)
    (hduration : 0 < t.targetDurationSeconds)
    (htarget : Scalar.isFinite (frameTarget t.targetDurationSeconds buffer.sampleRate) = true)
    (hnever : t.branchProbability ≤ 0 ∨ ∀ beat ∈ beats, beat.neighbors = #[]) :
    if 0 ≤ t.branchProbability ∧ t.branchProbability ≤ 1 then
      ∃ target : ℤ,
        Scalar.whole (frameTarget t.targetDurationSeconds buffer.sampleRate) = .int target
        ∧ match buffer.check with
          | .error fault => ∀ {σ : Type} (draws : Draws Float σ) (source : σ),
              generateTrack buffer beats t draws source = .error (.buffer fault)
          | .ok _ =>
            if 0 ≤ target ∧ target ≤ Memory.longest then
              ∃ output report, PlaysInOrder buffer output spans report target.toNat
                ∧ ∀ {σ : Type} (draws : Draws Float σ) (source : σ),
                    (∀ m, 0 ≤ draws.value m source ∧ draws.value m source < 1) →
                    generateTrack buffer beats t draws source
                      = .ok ⟨output, report, draws.after report.path.size source⟩
            else ∀ {σ : Type} (draws : Draws Float σ) (source : σ),
              generateTrack buffer beats t draws source = .error .impossibleLength
    else ∀ {σ : Type} (draws : Draws Float σ) (source : σ),
      generateTrack buffer beats t draws source = .error (.probability t.branchProbability) := by
  have hfinite := isFinite_of_frameTarget htarget
  split_ifs with hprob
  · have ht : t.Valid := ⟨hduration, hfinite, hprob⟩
    obtain ⟨target, -, hwhole⟩ := exists_whole_frameTarget htarget
    refine ⟨target, hwhole, ?_⟩
    cases hbuffer : buffer.check with
    | error fault =>
      intro σ draws source
      exact generateTrack_of_check ht hbeats hbuffer
    | ok _ =>
      dsimp only
      split_ifs with hroom
      · have hwithin := within_slicesOf hframes hspans hinside
        have hpos : 0 < (slicesOf spans).size := by
          rw [size_slicesOf, ← (forall₂_spansOf hspans).length_eq]
          exact List.length_pos_iff.mpr hbeats
        have hcount : ∀ s ∈ slicesOf spans, s.length = .int s.count ∧ 0 < s.count :=
          fun s hs => ⟨(hwithin s hs).length_eq, (hwithin s hs).pos⟩
        -- how many visits there are depends on the spans and the target alone
        obtain ⟨last, hlast, hreached, hbefore⟩ := exists_rounds hpos hcount target.toNat
        have hframe : Scalar.whole (frameTarget t.targetDurationSeconds buffer.sampleRate)
            = .int target.toNat := by rw [hwhole, Int.toNat_of_nonneg hroom.1]
        -- the draws do not appear in the track, so these stand for all others
        have horder := playsInOrder_around (⟨fun _ => (0, ()), 1⟩ : Draws Float Unit) ()
          t.branchProbability hbuffer hframes hbeats hspans hinside hframe hreached
        refine ⟨_, _, horder, ?_⟩
        intro σ draws source hdraws
        rw [generateTrack_of_room ht hbeats hbuffer hspans hwhole hroom,
          walk_around (jumpless_planOf hdraws hprob.1 hnever) hpos hcount hlast hreached hbefore]
        have hdrawn : draws.after (rounds (slicesOf spans).size last).toArray.size source
            = draws.after last source := congrArg (draws.after · source) (length_rounds _ _)
        exact congrArg (fun final => Except.ok (⟨_, _, final⟩ : Track Float σ)) hdrawn.symm
      · intro σ draws source
        exact generateTrack_of_no_room ht hbeats hbuffer hspans hwhole hroom
  · intro σ draws source
    unfold generateTrack
    rw [if_neg (not_duration_fault hduration hfinite), if_pos hprob]
    rfl

end

lemma tiles_twins {spans : List (Span Float)} (hok : spansOf fourFrames twins = .ok spans) :
    Tiles spans 4 := by
  have hedges : (spansOf fourFrames twins).map
      (·.map fun s => (Scalar.whole s.start, Scalar.whole s.stop))
        = .ok [(.int 0, .int 2), (.int 2, .int 4)] := by decide +kernel
  rw [hok] at hedges
  obtain ⟨a, rest, rfl, ha, hrest⟩ := List.map_eq_cons_iff.mp (Except.ok.inj hedges)
  obtain ⟨b, rest, rfl, hb, hrest⟩ := List.map_eq_cons_iff.mp hrest
  obtain rfl := List.map_eq_nil_iff.mp hrest
  obtain ⟨hfirst, hstop⟩ := Prod.mk.inj ha
  obtain ⟨hnext, hlast⟩ := Prod.mk.inj hb
  constructor
  · rintro s ⟨⟩
    exact hfirst
  · intro i s after hs hafter
    cases i with
    | zero =>
      obtain rfl := Option.some.inj hs
      obtain rfl := Option.some.inj hafter
      rw [hstop, hnext]
    | succ i => cases hafter
  · rintro s ⟨⟩
    exact hlast

/-- The twins' four frames lie end to end: seven frames of them are all four and then three again,
whatever is drawn. -/
theorem generateTrack_plays_in_order_twins :
    ∃ spans output report, spansOf fourFrames twins = .ok spans ∧ Tiles spans 4
      ∧ PlaysInOrder fourFrames output spans report 7
      ∧ generateTrack fourFrames twins ⟨3.5, 0⟩ fourthLow 0
          = .ok ⟨output, report, fourthLow.after report.path.size 0⟩
      ∧ generateTrack fourFrames twins ⟨3.5, 0⟩ Draws.seeded 1
          = .ok ⟨output, report, (Draws.seeded : Draws Float UInt32).after report.path.size 1⟩ := by
  obtain ⟨spans, hok, hinside⟩ := exists_spans_twins
  have hcheck : fourFrames.check = .ok () := by rfl
  have hprob : (0 : Float) ≤ 0 ∧ (0 : Float) ≤ 1 := by decide +kernel
  have hmade := @generateTrack_plays_in_order fourFrames twins spans ⟨3.5, 0⟩ _
    (by decide) (by decide) hok hinside (by decide +kernel) (by decide +kernel)
    (.inl (by decide +kernel))
  rw [if_pos hprob, hcheck] at hmade
  obtain ⟨target, htarget, hmade⟩ := hmade
  obtain rfl : 7 = target := Whole.int.inj (whole_sevenFrames.symm.trans htarget)
  dsimp only at hmade
  rw [if_pos (by decide)] at hmade
  obtain ⟨output, report, horder, hmade⟩ := hmade
  refine ⟨spans, output, report, hok, tiles_twins hok, horder, ?_, ?_⟩
  · exact hmade fourthLow 0 value_fourthLow
  · exact hmade Draws.seeded 1 fun m => unitOf_bounds _

/-- Nothing is played in order for ten to the 300 seconds, though that is a finite target. -/
theorem not_generateTrack_plays_in_order :
    Playable fourFrames twins ⟨1e300, 0⟩ fourthLow 0
      ∧ ¬∃ (_ : Memory) (track : Track Float ℕ),
          generateTrack fourFrames twins ⟨1e300, 0⟩ fourthLow 0 = .ok track
            ∧ track.report.jumps = 0
            ∧ ∀ k < track.report.path.size, track.report.path[k]? = some (k % twins.length) := by
  refine ⟨playable_twins (by decide +kernel) (by decide +kernel) (by decide +kernel), ?_⟩
  rintro ⟨memory, track, htrack, -⟩
  rw [generateTrack_ages (by decide +kernel) (by decide +kernel)] at htrack
  cases htrack

end EndlessRemix
