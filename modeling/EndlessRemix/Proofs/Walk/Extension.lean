import EndlessRemix.Proofs.Walk.Provenance

/-!
# Longer and shorter tracks

Two walks over one plan with the same draws make the same visits, and the one with the smaller
target stops earlier. Its path is the beginning of the other path, and what it plays is the
beginning of what the other plays: the visit that the shorter track cuts is one that the longer
track goes on with.
-/

namespace EndlessRemix

variable {R σ : Type} [Scalar R]

/-! ## Visits -/

/-- One visit leads from a walk to the next one, which has emitted the frames of the beat. -/
def Walker.Visits (plan : WalkPlan R σ) (w next : Walker σ) : Prop :=
  ∃ position left, w.next = some position
    ∧ (w.arrive plan.slices.size position).2.leave plan (w.arrive plan.slices.size position).1
        = .ok left
    ∧ next = { left with
        emitted := left.emitted + countAt plan.slices (w.arrive plan.slices.size position).1 }

/-- The journey of a walk that is over already. -/
def Walker.soFar (w : Walker σ) : Journey σ := w.finish (.int w.emitted)

/-- One journey is the beginning of another. -/
structure Journey.Begins (short long : Journey σ) : Prop where
  path : short.path.toList <+: long.path.toList
  jumps : short.jumps ≤ long.jumps
  wraparounds : short.wraparounds ≤ long.wraparounds

namespace Journey.Begins

variable {a b c : Journey σ}

omit [Scalar R] in
lemma refl (a : Journey σ) : a.Begins a := ⟨List.prefix_refl _, le_rfl, le_rfl⟩

omit [Scalar R] in
lemma trans (h : a.Begins b) (h' : b.Begins c) : a.Begins c :=
  ⟨h.path.trans h'.path, h.jumps.trans h'.jumps, h.wraparounds.trans h'.wraparounds⟩

end Journey.Begins

section

variable {plan : WalkPlan R σ} {w next : Walker σ}

/-- The choice after a visit moves the walk on and may count a jump. -/
lemma Walker.leave_keeps {here : ℕ} {left : Walker σ} (h : w.leave plan here = .ok left) :
    left.path = w.path ∧ left.emitted = w.emitted ∧ left.wraparounds = w.wraparounds
      ∧ w.jumps ≤ left.jumps := by
  unfold Walker.leave at h
  dsimp only at h
  split_ifs at h with hjump
  · split at h
    · rw [← Except.ok.inj h]
      exact ⟨rfl, rfl, rfl, Nat.le_succ _⟩
    · cases h
  · rw [← Except.ok.inj h]
    exact ⟨rfl, rfl, rfl, le_rfl⟩

/-- A visit adds a beat to the path and its frames to what is emitted. -/
lemma Walker.Visits.path_eq (h : w.Visits plan next) :
    ∃ position, w.next = some position
      ∧ next.path = w.path.push (wrapped plan.slices.size position)
      ∧ next.emitted = w.emitted + countAt plan.slices (wrapped plan.slices.size position)
      ∧ w.jumps ≤ next.jumps ∧ w.wraparounds ≤ next.wraparounds := by
  obtain ⟨position, left, hnext, hleave, rfl⟩ := h
  obtain ⟨hpath, hemitted, hwraps, hjumps⟩ := Walker.leave_keeps hleave
  rw [Walker.arrive_eq] at hpath hemitted hwraps hjumps ⊢
  refine ⟨position, hnext, hpath, ?_, hjumps, ?_⟩
  · show left.emitted + _ = _
    rw [hemitted]
  · show w.wraparounds ≤ left.wraparounds
    rw [hwraps]
    exact Nat.le_add_right _ _

/-- So what is emitted stays what the path plays. -/
lemma Walker.Visits.emitted_eq (h : w.Visits plan next)
    (hw : w.emitted = (w.path.toList.map (countAt plan.slices)).sum) :
    next.emitted = (next.path.toList.map (countAt plan.slices)).sum := by
  obtain ⟨position, -, hpath, hemitted, -, -⟩ := h.path_eq
  rw [hpath, hemitted, Array.toList_push, List.map_append, List.sum_append, ← hw]
  simp

/-- A visit emits at least one frame. -/
lemma Walker.Visits.emitted_lt (hpos : 0 < plan.slices.size)
    (hcount : ∀ s ∈ plan.slices, s.length = .int s.count ∧ 0 < s.count)
    (h : w.Visits plan next) : w.emitted < next.emitted := by
  obtain ⟨position, -, -, hemitted, -, -⟩ := h.path_eq
  have hframe := countAt_pos hcount (wrapped_lt hpos position)
  omega

/-- What a walk has done so far is the beginning of what it has done after a visit. -/
lemma Walker.Visits.begins (h : w.Visits plan next) : w.soFar.Begins next.soFar := by
  obtain ⟨position, -, hpath, -, hjumps, hwraps⟩ := h.path_eq
  refine ⟨?_, hjumps, hwraps⟩
  show w.path.toList <+: next.path.toList
  rw [hpath, Array.toList_push]
  exact List.prefix_append _ _

variable {target fuel : ℕ} {journey : Journey σ}

/-- A run that has reached its target is over. -/
lemma Walker.run_of_le (h : target ≤ w.emitted) (fuel : ℕ) :
    Walker.run plan target fuel w = .ok w.soFar := by
  cases fuel with
  | zero => rfl
  | succ fuel =>
    rw [Walker.run, if_neg (not_lt.mpr h)]
    rfl

/-- Below the target, a visit leads on. -/
lemma Walker.run_of_visits (hpos : 0 < plan.slices.size)
    (hcount : ∀ s ∈ plan.slices, s.length = .int s.count ∧ 0 < s.count)
    (htarget : w.emitted < target) (h : w.Visits plan next) :
    Walker.run plan target (fuel + 1) w = Walker.run plan target fuel next := by
  obtain ⟨position, left, hnext, hleave, rfl⟩ := h
  exact Walker.run_of_leave hpos hcount htarget hnext hleave

/-- Below the target, the journey goes on with a visit. -/
lemma Walker.of_run_succ (hpos : 0 < plan.slices.size)
    (hcount : ∀ s ∈ plan.slices, s.length = .int s.count ∧ 0 < s.count)
    (htarget : w.emitted < target) (h : Walker.run plan target (fuel + 1) w = .ok journey) :
    ∃ next, w.Visits plan next ∧ Walker.run plan target fuel next = .ok journey := by
  have h' := h
  rw [Walker.run, if_pos htarget] at h'
  cases hnext : w.next with
  | none =>
    rw [hnext] at h'
    cases h'
  | some position =>
    cases hleave : (w.arrive plan.slices.size position).2.leave plan
        (w.arrive plan.slices.size position).1 with
    | error lost =>
      rw [hnext] at h'
      dsimp only at h'
      rw [hleave] at h'
      cases h'
    | ok left =>
      have hvisits : w.Visits plan { left with
          emitted := left.emitted
            + countAt plan.slices (w.arrive plan.slices.size position).1 } :=
        ⟨position, left, hnext, hleave, rfl⟩
      exact ⟨_, hvisits, Walker.run_of_visits hpos hcount htarget hvisits ▸ h⟩

/-- What every visit below the target keeps holds of the walk that a run ends in, and a run that may
make enough visits ends at the target. -/
theorem Walker.run_induction {motive : Walker σ → Prop} (hpos : 0 < plan.slices.size)
    (hcount : ∀ s ∈ plan.slices, s.length = .int s.count ∧ 0 < s.count)
    (hvisit : ∀ {v next : Walker σ}, motive v → v.emitted < target → v.Visits plan next →
      motive next)
    (hw : motive w) (h : Walker.run plan target fuel w = .ok journey) :
    ∃ last : Walker σ, journey = last.soFar ∧ motive last
      ∧ (target ≤ w.emitted + fuel → target ≤ last.emitted) := by
  induction fuel generalizing w with
  | zero =>
    obtain rfl := Except.ok.inj h
    exact ⟨w, rfl, hw, id⟩
  | succ fuel ih =>
    by_cases htarget : w.emitted < target
    · obtain ⟨next, hvisits, hrun⟩ := Walker.of_run_succ hpos hcount htarget h
      have hframe := hvisits.emitted_lt hpos hcount
      obtain ⟨last, hlast, hmotive, hreached⟩ := ih (hvisit hw htarget hvisits) hrun
      exact ⟨last, hlast, hmotive, fun hfuel => hreached (by omega)⟩
    · rw [Walker.run_of_le (not_lt.mp htarget)] at h
      obtain rfl := Except.ok.inj h
      exact ⟨w, rfl, hw, fun _ => not_lt.mp htarget⟩

/-- A journey goes on from where the walk is. -/
theorem Walker.begins_run (hpos : 0 < plan.slices.size)
    (hcount : ∀ s ∈ plan.slices, s.length = .int s.count ∧ 0 < s.count)
    (h : Walker.run plan target fuel w = .ok journey) : w.soFar.Begins journey := by
  obtain ⟨last, rfl, hbegins, -⟩ :=
    Walker.run_induction (motive := fun v => w.soFar.Begins v.soFar) hpos hcount
      (fun hv _ hvisits => hv.trans hvisits.begins) (Journey.Begins.refl _) h
  exact hbegins

/-- What a journey has emitted is what its path plays, and reaches the target if the visits that it
may make are enough. -/
theorem Walker.run_emits (hpos : 0 < plan.slices.size)
    (hcount : ∀ s ∈ plan.slices, s.length = .int s.count ∧ 0 < s.count)
    (hemitted : w.emitted = (w.path.toList.map (countAt plan.slices)).sum)
    (hfuel : target ≤ w.emitted + fuel) (h : Walker.run plan target fuel w = .ok journey) :
    journey.emitted = .int (journey.path.toList.map (countAt plan.slices)).sum
      ∧ target ≤ (journey.path.toList.map (countAt plan.slices)).sum := by
  obtain ⟨last, rfl, hlast, hreached⟩ :=
    Walker.run_induction (motive := fun v => v.emitted
      = (v.path.toList.map (countAt plan.slices)).sum) hpos hcount
      (fun hv _ hvisits => hvisits.emitted_eq hv) hemitted h
  exact ⟨congrArg (fun n : ℕ => Whole.int n) hlast, hlast ▸ hreached hfuel⟩

/-- The run for a smaller target makes the first visits of the run for a larger one. -/
theorem Walker.run_begins {target' fuel' : ℕ} {long : Journey σ} (hpos : 0 < plan.slices.size)
    (hcount : ∀ s ∈ plan.slices, s.length = .int s.count ∧ 0 < s.count)
    (hle : target ≤ target') (hfuel : target ≤ w.emitted + fuel)
    (hfuel' : target' ≤ w.emitted + fuel')
    (hlong : Walker.run plan target' fuel' w = .ok long) :
    ∃ short, Walker.run plan target fuel w = .ok short ∧ short.Begins long := by
  induction fuel' generalizing w fuel with
  | zero =>
    exact ⟨_, Walker.run_of_le (hle.trans hfuel') fuel, Walker.begins_run hpos hcount hlong⟩
  | succ fuel' ih =>
    by_cases htarget : w.emitted < target
    · -- both walks make the same visit
      obtain ⟨next, hvisits, hrun⟩ := Walker.of_run_succ hpos hcount (htarget.trans_le hle) hlong
      have hframe := hvisits.emitted_lt hpos hcount
      obtain ⟨fuel, rfl⟩ : ∃ k, fuel = k + 1 := ⟨fuel - 1, by omega⟩
      rw [Walker.run_of_visits hpos hcount htarget hvisits]
      exact ih (by omega) (by omega) hrun
    · exact ⟨_, Walker.run_of_le (not_lt.mp htarget) fuel, Walker.begins_run hpos hcount hlong⟩

end

section

variable {plan : WalkPlan R σ} {source : σ} {target target' : ℕ} {short long : Journey σ}

omit [Scalar R] in
/-- A walk may make at least as many visits as it is to emit frames. -/
lemma WalkPlan.le_visits (plan : WalkPlan R σ) (target : ℕ) :
    target ≤ (target + 1) * (plan.patience + 1) := by
  have hle : target + 1 ≤ (target + 1) * (plan.patience + 1) :=
    Nat.le_mul_of_pos_right _ (Nat.succ_pos _)
  omega

/-- A walk emits what its path plays, and reaches its target. -/
theorem walk_emits (hpos : 0 < plan.slices.size)
    (hcount : ∀ s ∈ plan.slices, s.length = .int s.count ∧ 0 < s.count)
    (h : walk plan target source = .ok long) :
    long.emitted = .int (long.path.toList.map (countAt plan.slices)).sum
      ∧ target ≤ (long.path.toList.map (countAt plan.slices)).sum :=
  Walker.run_emits hpos hcount rfl (Nat.le_add_left_of_le (plan.le_visits target)) h

/-- The walk to a smaller target is the beginning of the walk to a larger one. -/
theorem walk_begins (hpos : 0 < plan.slices.size)
    (hcount : ∀ s ∈ plan.slices, s.length = .int s.count ∧ 0 < s.count)
    (hle : target ≤ target') (hlong : walk plan target' source = .ok long) :
    ∃ short, walk plan target source = .ok short ∧ short.Begins long :=
  Walker.run_begins hpos hcount hle (Nat.le_add_left_of_le (plan.le_visits target))
    (Nat.le_add_left_of_le (plan.le_visits target')) hlong

end

/-! ## The output of a shorter path -/

section

variable {slices : Array Slice} {channel : Array Sample} {short long : Array ℕ} {frames frames' : ℕ}

/-- The beginning of a path plays the beginning of what the path plays. -/
theorem renderChannel_begins (hslices : ∀ s ∈ slices, s.Within channel.size)
    (hpath : short.toList <+: long.toList) (hle : frames ≤ frames')
    (hshort : frames ≤ (short.toList.map (countAt slices)).sum)
    (hlong : frames' ≤ (long.toList.map (countAt slices)).sum) :
    renderChannel slices short frames channel
      = (renderChannel slices long frames' channel).extract 0 frames := by
  obtain ⟨rest, hrest⟩ := hpath
  have hplayed : frames ≤ (short.toList.flatMap (takenAt slices channel)).length := by
    rw [length_flatMap_takenAt hslices]
    exact hshort
  apply Array.ext'
  rw [Array.toList_extract, List.extract_eq_take_drop, List.drop_zero, Nat.sub_zero,
    toList_renderChannel hslices hshort, toList_renderChannel hslices hlong, List.take_take,
    min_eq_left hle, ← hrest, List.flatMap_append, List.take_append_of_le_length hplayed]

end

/-! ## Two tracks -/

/-- Two finite targets are integers in the same order. -/
lemma exists_wholes_frameTarget {d e rate : Float}
    (hd : Scalar.isFinite (frameTarget d rate) = true)
    (he : Scalar.isFinite (frameTarget e rate) = true)
    (hle : frameTarget d rate ≤ frameTarget e rate) :
    ∃ i j : ℤ, Scalar.whole (frameTarget d rate) = .int i
      ∧ Scalar.whole (frameTarget e rate) = .int j ∧ i ≤ j := by
  obtain ⟨i, hi, hwhole⟩ := exists_whole_frameTarget hd
  obtain ⟨j, hj, hwhole'⟩ := exists_whole_frameTarget he
  exact ⟨i, j, hwhole, hwhole', by exact_mod_cast (Double.le_iff_of_value hi hj).mp hle⟩

/-- One track is the beginning of another: the path is, the output has the first frames of the other
output in every channel, and nothing is counted that the other does not count. The draws behind a
track are one for every visit and one for every jump. -/
structure Track.Begins (draws : Draws Float σ) (source : σ) (short long : Track Float σ)
    (frames : ℕ) : Prop where
  path : short.report.path.toList <+: long.report.path.toList
  size : ∀ out ∈ short.output.channels, out.size = frames
  output : short.output.channels = long.output.channels.map (·.extract 0 frames)
  jumps : short.report.jumps ≤ long.report.jumps
  wraparounds : short.report.wraparounds ≤ long.report.wraparounds
  emitted : ∃ m n : ℕ, short.report.emitted = .int m ∧ long.report.emitted = .int n ∧ m ≤ n
  drawn : ∃ m n : ℕ, m = short.report.path.size + short.report.jumps
    ∧ n = long.report.path.size + long.report.jumps
    ∧ short.source = draws.after m source ∧ long.source = draws.after n source ∧ m ≤ n

section

variable {buffer : SampleBuffer Float} {beats : List (Beat Float)} {spans : List (Span Float)}
  {draws : Draws Float σ} {source : σ} {p : Float}

/-- The walks to two targets give tracks of which one is the beginning of the other. -/
lemma begins_trackOf {frames frames' : ℕ} {target target' : Float} {short long : Journey σ}
    (hbuffer : buffer.check = .ok ()) (hwithin : ∀ s ∈ slicesOf spans, s.Within buffer.frameCount)
    (hclosed : (planOf beats spans p draws).Closed)
    (hpos : 0 < (planOf beats spans p draws).slices.size)
    (hle : frames ≤ frames') (hbegins : short.Begins long)
    (hshort : walk (planOf beats spans p draws) frames source = .ok short)
    (hlong : walk (planOf beats spans p draws) frames' source = .ok long) :
    (trackOf buffer (planOf beats spans p draws) frames target short).Begins draws source
      (trackOf buffer (planOf beats spans p draws) frames' target' long) frames := by
  have hcount : ∀ s ∈ (planOf beats spans p draws).slices, s.length = .int s.count ∧ 0 < s.count :=
    fun s hs => ⟨(hwithin s hs).length_eq, (hwithin s hs).pos⟩
  have hchannel : ∀ channel ∈ buffer.channels, ∀ s ∈ slicesOf spans, s.Within channel.size := by
    intro channel hmem
    rw [size_of_check hbuffer channel hmem]
    exact hwithin
  obtain ⟨hemitted, hreached⟩ := walk_emits hpos hcount hshort
  obtain ⟨hemitted', hreached'⟩ := walk_emits hpos hcount hlong
  have hsum : (short.path.toList.map (countAt (slicesOf spans))).sum
      ≤ (long.path.toList.map (countAt (slicesOf spans))).sum := by
    obtain ⟨rest, hrest⟩ := hbegins.path
    rw [← hrest, List.map_append, List.sum_append]
    exact Nat.le_add_right _ _
  obtain ⟨_, htrail⟩ := exists_trail hclosed hpos hshort
  obtain ⟨_, htrail'⟩ := exists_trail hclosed hpos hlong
  have hsize : short.path.size ≤ long.path.size := hbegins.path.length_le
  refine ⟨hbegins.path, ?_, ?_, hbegins.jumps, hbegins.wraparounds,
    ⟨_, _, hemitted, hemitted', hsum⟩,
    ⟨_, _, rfl, rfl, htrail.final_eq, htrail'.final_eq, Nat.add_le_add hsize hbegins.jumps⟩⟩
  · intro out hout
    obtain ⟨channel, hmem, rfl⟩ := List.mem_map.mp hout
    exact size_renderChannel (hchannel channel hmem) hreached
  · show buffer.channels.map _ = (buffer.channels.map _).map _
    rw [List.map_map]
    apply List.map_congr_left
    intro channel hmem
    exact renderChannel_begins (hchannel channel hmem) hbegins.path hle hreached hreached'

/-- A longer track extends a shorter one. Over beats whose spans are inside the buffer and whose
neighbors are beats, whenever the larger of two targets gives a track, the smaller one gives its
beginning: of the path, of the output in every channel, and of everything that is counted. Only a
target below zero, which a negative sample rate gives, has no track of its own. With draws in
`[0, 1)` the larger target gives a track exactly if it is a length that the memory has room for. -/
theorem generateTrack_extends [Memory] {d e : Float} (hbuffer : buffer.check = .ok ())
    (hframes : buffer.frameCount < 2 ^ 53) (hspans : spansOf buffer beats = .ok spans)
    (hinside : ∀ s ∈ spans, s.Inside buffer.frameCount)
    (hdest : ∀ beat ∈ beats, ∀ neighbor ∈ beat.neighbors,
      ∃ j < beats.length, neighbor.dest = .beat j)
    (hlow : 0 ≤ p) (hhigh : p ≤ 1) (hd : 0 < d) (he : 0 < e)
    (hdtarget : Scalar.isFinite (frameTarget d buffer.sampleRate) = true)
    (hetarget : Scalar.isFinite (frameTarget e buffer.sampleRate) = true)
    (hle : frameTarget d buffer.sampleRate ≤ frameTarget e buffer.sampleRate) :
    ∃ i j : ℤ, Scalar.whole (frameTarget d buffer.sampleRate) = .int i
      ∧ Scalar.whole (frameTarget e buffer.sampleRate) = .int j ∧ i ≤ j
      ∧ (∀ long, generateTrack buffer beats ⟨e, p⟩ draws source = .ok long →
          if 0 ≤ i then
            ∃ short, generateTrack buffer beats ⟨d, p⟩ draws source = .ok short
              ∧ Scalar.whole short.report.target = .int i
              ∧ short.Begins draws source long i.toNat
          else generateTrack buffer beats ⟨d, p⟩ draws source = .error .impossibleLength)
      ∧ (beats ≠ [] → (∀ beat ∈ beats, beat.neighbors.size < 2 ^ 53) →
          (∀ m, 0 ≤ draws.value m source ∧ draws.value m source < 1) →
          if 0 ≤ j ∧ j ≤ Memory.longest then
            ∃ long, generateTrack buffer beats ⟨e, p⟩ draws source = .ok long
          else generateTrack buffer beats ⟨e, p⟩ draws source = .error .impossibleLength) := by
  have ht : (⟨d, p⟩ : TrackOptions Float).Valid :=
    ⟨hd, isFinite_of_frameTarget hdtarget, hlow, hhigh⟩
  have ht' : (⟨e, p⟩ : TrackOptions Float).Valid :=
    ⟨he, isFinite_of_frameTarget hetarget, hlow, hhigh⟩
  have hclosed := closed_planOf p draws hspans hdest
  have hwithin := within_slicesOf hframes hspans hinside
  have hcount : ∀ s ∈ (planOf beats spans p draws).slices, s.length = .int s.count ∧ 0 < s.count :=
    fun s hs => ⟨(hwithin s hs).length_eq, (hwithin s hs).pos⟩
  have hpos : beats ≠ [] → 0 < (planOf beats spans p draws).slices.size := by
    intro hne
    rw [size_planOf p draws hspans]
    exact List.length_pos_iff.mpr hne
  obtain ⟨i, j, hi, hj, hij⟩ := exists_wholes_frameTarget hdtarget hetarget hle
  refine ⟨i, j, hi, hj, hij, ?_, ?_⟩
  · intro long hlong
    obtain ⟨spans', frames, journey, hne, -, hspans', hlength, hwalk, rfl⟩ := of_generateTrack hlong
    obtain rfl : spans' = spans := Except.ok.inj (hspans'.symm.trans hspans)
    -- the larger target is a length, so the smaller one is if it is not negative
    rw [hj, Whole.toLength?_int] at hlength
    split_ifs at hlength with hroom'
    obtain rfl := Option.some.inj hlength
    split_ifs with hnonneg
    · have hroom : 0 ≤ i ∧ i ≤ Memory.longest := ⟨hnonneg, hij.trans hroom'.2⟩
      have hlengths : i.toNat ≤ j.toNat := Int.toNat_le_toNat hij
      obtain ⟨journey', hwalk', hbegins⟩ := walk_begins (hpos hne) hcount hlengths hwalk
      rw [generateTrack_of_room ht hne hbuffer hspans hi hroom, hwalk']
      exact ⟨_, rfl, hi,
        begins_trackOf hbuffer hwithin hclosed (hpos hne) hlengths hbegins hwalk' hwalk⟩
    · exact generateTrack_of_no_room ht hne hbuffer hspans hi fun h => hnonneg h.1
  · intro hne hlists hdraws
    split_ifs with hroom
    · obtain ⟨journey, hwalk, -, -⟩ := walk_completes j.toNat hclosed
        (chooses_planOf hlists hdraws p) (hpos hne) hcount
      rw [generateTrack_of_room ht' hne hbuffer hspans hj hroom, hwalk]
      exact ⟨_, rfl⟩
    · exact generateTrack_of_no_room ht' hne hbuffer hspans hj hroom

end

/-- Three frames of the twins' four are the beginning of seven frames: the second visit is cut short
in the one track and copied whole in the other. -/
theorem generateTrack_extends_twins :
    ∃ short long, generateTrack fourFrames twins ⟨1.5, 0.5⟩ fourthLow 0 = .ok short
      ∧ generateTrack fourFrames twins ⟨3.5, 0.5⟩ fourthLow 0 = .ok long
      ∧ Scalar.whole short.report.target = .int 3 ∧ short.Begins fourthLow 0 long 3 := by
  obtain ⟨spans, hok, hinside⟩ := exists_spans_twins
  obtain ⟨i, j, hi, hj, -, hshort, hlong⟩ := @generateTrack_extends _ fourFrames twins spans
    fourthLow 0 0.5 _ 1.5 3.5 (by rfl) (by decide) hok hinside dest_twins
    (by decide +kernel) (by decide +kernel) (by decide +kernel) (by decide +kernel)
    (by decide +kernel) (by decide +kernel) (by decide +kernel)
  have hthree : Scalar.whole (frameTarget 1.5 fourFrames.sampleRate) = .int 3 := by decide +kernel
  obtain rfl : 3 = i := Whole.int.inj (hthree.symm.trans hi)
  obtain rfl : 7 = j := Whole.int.inj (whole_sevenFrames.symm.trans hj)
  have hmade := hlong (by decide) (by decide) value_fourthLow
  rw [if_pos (by decide)] at hmade
  obtain ⟨long, hrun⟩ := hmade
  have hbegins := hshort long hrun
  rw [if_pos (by decide)] at hbegins
  obtain ⟨short, hrun', htarget, hshort⟩ := hbegins
  exact ⟨short, long, hrun', hrun, htarget, hshort⟩

/-- Three frames of the twins' four are not the beginning of a track of ten to the 300 seconds,
though both targets are finite: there is no such track. -/
theorem not_generateTrack_extends :
    Playable fourFrames twins ⟨1.5, 0.5⟩ fourthLow 0
      ∧ Playable fourFrames twins ⟨1e300, 0.5⟩ fourthLow 0
      ∧ frameTarget 1.5 fourFrames.sampleRate ≤ frameTarget 1e300 fourFrames.sampleRate
      ∧ (∃ short, generateTrack fourFrames twins ⟨1.5, 0.5⟩ fourthLow 0 = .ok short)
      ∧ ¬∃ (_ : Memory) (short long : Track Float ℕ),
          generateTrack fourFrames twins ⟨1.5, 0.5⟩ fourthLow 0 = .ok short
            ∧ generateTrack fourFrames twins ⟨1e300, 0.5⟩ fourthLow 0 = .ok long
            ∧ short.Begins fourthLow 0 long 3 := by
  have hrun : (match generateTrack fourFrames twins ⟨1.5, 0.5⟩ fourthLow 0 with
      | .ok _ => true
      | .error _ => false) = true := by decide +kernel
  refine ⟨playable_twins (by decide +kernel) (by decide +kernel) (by decide +kernel),
    playable_twins (by decide +kernel) (by decide +kernel) (by decide +kernel), by decide +kernel,
    ?_, ?_⟩
  · split at hrun
    · rename_i short hshort
      exact ⟨short, hshort⟩
    · cases hrun
  · rintro ⟨memory, short, long, -, hlong, -⟩
    rw [generateTrack_ages (by decide +kernel) (by decide +kernel)] at hlong
    cases hlong

end EndlessRemix
