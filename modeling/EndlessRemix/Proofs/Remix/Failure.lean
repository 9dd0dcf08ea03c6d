import EndlessRemix.Proofs.Random
import EndlessRemix.Proofs.Remix.Course
import EndlessRemix.Proofs.Walk.Provenance

/-!
# How a remix can fail

A remix of extracted beats fails with an error of one of the four kinds, except where its target has
more frames than the memory has room for. Bad settings are found before anything happens: once the
beats are extracted, no error is one of configuration.
-/

namespace EndlessRemix

/-! ## Walks over connected beats -/

section

variable {R : Type} [Scalar R] {o : GraphOptions R} {beats : List (Beat R)} {c : Connection R}

/-- Connected beats obey the rules. -/
lemma checkBeats_of_connect (h : connect o beats = .ok c) : checkBeats c.beats = .ok () := by
  rw [← checkBeats_withoutNeighbors, sameBeats_of_connect h, checkBeats_withoutNeighbors]
  exact (of_connect h).1

/-- No beat has more neighbors by definition than there are beats. -/
lemma length_neighborsIn_le (o : GraphOptions R) (beats : List (Beat R)) (i : ℕ) (a : Beat R) :
    (neighborsIn o beats i a).length ≤ beats.length := by
  rw [← List.length_zipIdx (l := beats) (i := 0)]
  exact List.length_filterMap_le _ _

variable [SymmetricDifference R]

/-- The neighbors of connected beats are connected beats, and not too many. -/
theorem neighbors_of_connect (h : connect o beats = .ok c) : ∀ beat ∈ c.beats,
    (∀ neighbor ∈ beat.neighbors, ∃ j < c.beats.length, neighbor.dest = .beat j)
      ∧ beat.neighbors.size ≤ beats.length := by
  intro beat hmem
  obtain ⟨-, ⟨hbuild, -⟩ | ⟨-, rfl⟩⟩ := of_connect h
  · obtain ⟨-, -, hbeats⟩ := of_buildGraph hbuild
    obtain ⟨here, hhere⟩ := List.mem_iff_getElem?.mp hmem
    constructor
    · intro neighbor hneighbor
      obtain ⟨j, b, hb, -, rfl, -⟩ := neighbor_of_buildGraph hbuild hhere hneighbor
      exact ⟨j, (List.getElem?_eq_some_iff.mp hb).1, rfl⟩
    · rw [hbeats] at hhere
      have hlt : here < beats.length := by
        rw [← length_withNeighbors (o := o)]
        exact (List.getElem?_eq_some_iff.mp hhere).1
      rw [getElem?_withNeighbors (List.getElem?_eq_getElem hlt)] at hhere
      rw [← Option.some.inj hhere]
      exact length_neighborsIn_le o beats here _
  · -- a lone beat has none
    obtain ⟨beat', -, rfl⟩ := List.mem_map.mp hmem
    exact ⟨fun neighbor hneighbor => absurd hneighbor (Array.not_mem_empty _), Nat.zero_le _⟩

end

section

variable {buffer : SampleBuffer Float} {o : RemixOptions Float} {beats : List (Beat Float)}
  {c : Connection Float}

/-- A source that passes has a rate above zero. -/
lemma value?_sampleRate (hsource : checkSource buffer = .ok ()) :
    ∃ r, Double.value? buffer.sampleRate = some r ∧ 0 < r := by
  obtain ⟨hfinite, hpositive, -⟩ := checkSource_eq_ok.mp hsource
  obtain ⟨r, hr⟩ := (Double.isFinite_iff _).mp hfinite
  rw [Double.le_iff_of_value hr Double.value?_zero, not_le] at hpositive
  exact ⟨r, hr, hpositive⟩

/-- A walk over connected beats, drawn from a seed, is never lost. -/
theorem exists_walk_of_connect (hframes : buffer.frameCount < 2 ^ 53)
    (hsource : checkSource buffer = .ok ()) (hlength : beats.length < 2 ^ 53)
    (hconnect : connect o.graph beats = .ok c) (hne : c.beats ≠ []) {spans : List (Span Float)}
    (hspans : spansOf buffer c.beats = .ok spans) (p : Float) (frames : ℕ) (source : UInt32) :
    ∃ journey, walk (planOf c.beats spans p .seeded) frames source = .ok journey := by
  obtain ⟨r, hr, hpositive⟩ := value?_sampleRate hsource
  have htimely := timely_of_checkBeats (checkBeats_of_connect hconnect)
  have hneighbors := neighbors_of_connect hconnect
  have hinside : ∀ s ∈ spans, s.Inside buffer.frameCount := by
    intro s hs
    obtain ⟨hlen, hget⟩ := List.forall₂_iff_get.mp (forall₂_spansOf hspans)
    obtain ⟨i, hi, rfl⟩ := List.mem_iff_getElem.mp hs
    have hi' : i < c.beats.length := by omega
    exact inside_of_timely hframes (htimely _ (List.getElem_mem hi')) hr hpositive (hget i hi' hi)
  have hdraws : ∀ m, 0 ≤ (Draws.seeded : Draws Float UInt32).value m source
      ∧ (Draws.seeded : Draws Float UInt32).value m source < 1 := fun m => unitOf_bounds _
  have hclosed : (planOf c.beats spans p .seeded).Closed :=
    closed_planOf p _ hspans fun beat hbeat => (hneighbors beat hbeat).1
  have hchooses : (planOf c.beats spans p .seeded).Chooses source :=
    chooses_planOf (fun beat hbeat => lt_of_le_of_lt (hneighbors beat hbeat).2 hlength) hdraws p
  have hsize : 0 < (planOf c.beats spans p .seeded).slices.size := by
    rw [size_planOf p _ hspans]
    exact List.length_pos_iff.mpr hne
  have hwithin := within_slicesOf hframes hspans hinside
  obtain ⟨journey, hwalk, -, -⟩ := walk_completes frames hclosed hchooses hsize
    fun s hs => ⟨(hwithin s hs).length_eq, (hwithin s hs).pos⟩
  exact ⟨journey, hwalk⟩

/-- A number of frames above zero that no list in the memory can have is infinite, or too large. -/
lemma whole_frameTarget_of_none [Memory] {seconds rate : Float} {a r : ℚ}
    (ha : Double.value? seconds = some a) (ha0 : 0 ≤ a) (hr : Double.value? rate = some r)
    (hr0 : 0 ≤ r) (h : (Scalar.whole (frameTarget seconds rate)).toLength? = none) :
    Scalar.whole (frameTarget seconds rate) = .posInf
      ∨ ∃ n : ℕ, Memory.longest < n ∧ Scalar.whole (frameTarget seconds rate) = .int n := by
  rcases Double.mul_nonneg_cases ha ha0 hr hr0 with ⟨p, hp, hp0⟩ | hinf
  · -- a product in range rounds to a count of frames
    have hround := Double.value?_round hp
    obtain ⟨n, hn⟩ := Int.eq_ofNat_of_zero_le (Int.floor_nonneg.mpr (by linarith : 0 ≤ p + 1 / 2))
    rw [hn] at hround
    have hwhole : Scalar.whole (frameTarget seconds rate) = .int n := Double.whole_of_value hround
    rw [hwhole] at h ⊢
    rw [Whole.toLength?_int] at h
    split_ifs at h with hroom
    exact .inr ⟨n, by omega, rfl⟩
  · exact .inl (Double.whole_infinity (Double.unpacked_round_infinity hinf))

end

/-! ## Accepted options -/

namespace RemixSettings.Gives

variable {drawn : Float} {s : RemixSettings Float} {o : RemixOptions Float}

/-- The target of given options is a number above zero. -/
lemma value?_target (h : s.Gives drawn o) :
    ∃ a, Double.value? o.targetDurationSeconds = some a ∧ 0 < a := by
  obtain ⟨⟨-, hfinite⟩, hpositive⟩ := Setting.positive_eq_ok.mp h.targetDurationSeconds
  obtain ⟨a, ha⟩ := (Double.isFinite_iff _).mp hfinite
  rw [Double.le_iff_of_value ha Double.value?_zero, not_le] at hpositive
  exact ⟨a, ha, hpositive⟩

/-- The probability of given options is a number from zero to one. -/
lemma value?_probability (h : s.Gives drawn o) :
    ∃ p, Double.value? o.branchProbability = some p ∧ 0 ≤ p ∧ p ≤ 1 := by
  obtain ⟨⟨-, hfinite⟩, hwithin⟩ := Setting.probability_eq_ok.mp h.branchProbability
  obtain ⟨p, hp⟩ := (Double.isFinite_iff _).mp hfinite
  rw [Double.lt_iff_of_value hp Double.value?_zero, Double.lt_iff_of_value Double.value?_one hp,
    not_or, not_lt, not_lt] at hwithin
  exact ⟨p, hp, hwithin⟩

/-- A track never complains about given options: what they were checked for, it checks again. -/
theorem kind?_of_generateTrack [Memory] (h : s.Gives drawn o) {σ : Type}
    {buffer : SampleBuffer Float} {beats : List (Beat Float)} {draws : Draws Float σ} {source : σ}
    {fault : TrackFault Float σ}
    (hfault : generateTrack buffer beats ⟨o.targetDurationSeconds, o.branchProbability⟩ draws source
      = .error fault) :
    fault.kind? ≠ some .configuration := by
  obtain ⟨a, ha, hpositive⟩ := h.value?_target
  obtain ⟨p, hp, hp0, hp1⟩ := h.value?_probability
  cases course_of_generateTrack hfault with
  | duration hbad =>
    rcases hbad with hbad | hbad
    · exact absurd ((Double.lt_iff_of_value Double.value?_zero ha).mpr hpositive) hbad
    · exact absurd ((Double.isFinite_iff _).mpr ⟨a, ha⟩) hbad
  | probability hbad =>
    exact absurd ⟨(Double.le_iff_of_value Double.value?_zero hp).mpr hp0,
      (Double.le_iff_of_value hp Double.value?_one).mpr hp1⟩ hbad
  | _ => exact nofun

end RemixSettings.Gives

/-! ## Kinds of failures -/

section

variable {R : Type} [Scalar R] [Memory] {extract : Extractor R} {buffer : SampleBuffer R}
  {o : RemixOptions R} {events : List (RemixEvent R)} {outcome : Except (RemixError R) (Remix R)}

omit [Scalar R] [Memory] in
lemma extractions_append (events events' : List (RemixEvent R)) :
    extractions (events ++ events') = extractions events + extractions events' :=
  List.countP_append

/-- Every course extracts beats once. -/
theorem extractions_of_course (h : Course extract buffer o events outcome) :
    extractions events = 1 := by
  have hopening : extractions (openingEvents buffer) = 1 := rfl
  have hbeats : ∀ beats, extractions (beatEvents o beats) = 0 := fun beats => rfl
  have hconnection : ∀ c, extractions (connectionEvents o c) = 0 := by
    intro c
    rw [connectionEvents, extractions_append]
    cases c.degenerate <;> rfl
  have htrack : ∀ report : TrackReport R, extractions (trackEvents report) = 0 := fun report => rfl
  cases h <;> simp only [extractions_append, hopening, hbeats, hconnection, htrack]

end

/-- A source that does not pass fails with an error of a kind. -/
lemma exists_kind_of_checkSource {R : Type} [Scalar R] {buffer : SampleBuffer R} {e : RemixError R}
    (h : checkSource buffer = .error e) : ∃ kind, e.kind? = some kind := by
  unfold checkSource at h
  split_ifs at h with hrate
  · rw [← Except.error.inj h]
    exact ⟨_, rfl⟩
  · obtain ⟨fault, -, rfl⟩ := mapError_eq_error.mp h
    exact ⟨_, rfl⟩

section

variable {extract : Extractor Float} {drawn : Float} {buffer : SampleBuffer Float}
  {settings : RemixSettings Float}

/-- A remix fails because of its configuration only before anything happens: then no beats have been
extracted and nothing has been said. Once beats are extracted, they have been extracted once, and
whatever fails after that is of another kind. So a track never complains about options that were
accepted, on any beats and with any draws. -/
theorem makeRemix_configuration [Memory]
    (hextract : ∀ o e, extract o buffer = .error e → e.kind? ≠ some .configuration) :
    (∀ e, (makeRemix extract drawn buffer settings).outcome = .error e →
        e.kind? = some .configuration → (makeRemix extract drawn buffer settings).events = [])
      ∧ (.extraction ∈ (makeRemix extract drawn buffer settings).events →
        extractions (makeRemix extract drawn buffer settings).events = 1
          ∧ ∀ e, (makeRemix extract drawn buffer settings).outcome = .error e →
            e.kind? ≠ some .configuration)
      ∧ ∀ o, settings.resolve drawn = .ok o →
        ∀ (σ : Type) (beats : List (Beat Float)) (draws : Draws Float σ) (source : σ) fault,
          generateTrack buffer beats ⟨o.targetDurationSeconds, o.branchProbability⟩ draws source
            = .error fault → fault.kind? ≠ some .configuration := by
  have haccepted : ∀ o, settings.resolve drawn = .ok o → ∀ (σ : Type) (beats : List (Beat Float))
      (draws : Draws Float σ) (source : σ) fault,
      generateTrack buffer beats ⟨o.targetDurationSeconds, o.branchProbability⟩ draws source
        = .error fault → fault.kind? ≠ some .configuration :=
    fun o ho σ beats draws source fault hfault =>
      (RemixSettings.resolve_eq_ok.mp ho).kind?_of_generateTrack hfault
  have hcourse : ∀ {o events e}, settings.resolve drawn = .ok o →
      Course extract buffer o events (.error e) → e.kind? ≠ some .configuration := by
    intro o events e ho h
    cases h with
    | notExtracted h => exact hextract _ _ h
    | noBeats => exact nofun
    | notConnected _ _ h =>
      rcases of_connect_eq_error h with ⟨-, rfl⟩ | ⟨rule, -, rfl⟩
      · exact nofun
      · exact nofun
    | rejected => exact nofun
    | noTrack _ _ _ _ h =>
      obtain ⟨fault, hfault, rfl⟩ := mapError_eq_error.mp h
      exact haccepted o ho _ _ _ _ fault hfault
  rcases makeRemix_cases extract drawn buffer settings with
    ⟨fault, -, hmake⟩ | ⟨o, e', -, -, hmake⟩ | ⟨o, ho, -, hmake⟩ <;> rw [hmake]
  · exact ⟨fun e _ _ => rfl, fun h => absurd h List.not_mem_nil, haccepted⟩
  · exact ⟨fun e _ _ => rfl, fun h => absurd h List.not_mem_nil, haccepted⟩
  · have hlater : ∀ e, (remixWith extract buffer o).outcome = .error e →
        e.kind? ≠ some .configuration := by
      intro e hrun
      obtain ⟨events, -, h⟩ := exists_course hrun
      exact hcourse ho h
    exact ⟨fun e hrun hkind => absurd hkind (hlater e hrun),
      fun _ => ⟨extractions_of_course (course_remixWith extract buffer o), hlater⟩, haccepted⟩

/-- A target of less than nothing. -/
def backwards : RemixSettings Float := { targetDurationSeconds := Setting.ofNumber (-1) }

/-- It is refused before the twins are extracted. -/
theorem makeRemix_configuration_backwards :
    ∃ e, (makeRemix (.constant twins) 0.25 fourFrames backwards).outcome = .error e
      ∧ e.kind? = some .configuration
      ∧ (makeRemix (.constant twins) 0.25 fourFrames backwards).events = [] := by
  have hrun : (match (makeRemix (.constant twins) 0.25 fourFrames backwards).outcome with
      | .ok _ => false
      | .error e => decide (e.kind? = some .configuration)) = true := by decide +kernel
  split at hrun
  · cases hrun
  · rename_i e he
    have hkind := of_decide_eq_true hrun
    have hextract : ∀ o e', Extractor.constant twins o fourFrames = .error e' →
        e'.kind? ≠ some .configuration := by
      rintro o e' ⟨⟩
    exact ⟨e, he, hkind, (makeRemix_configuration hextract).1 e he hkind⟩

/-- A remix of extracted beats fails with an error of one of the four kinds, except where the
options are accepted and their target has infinitely many frames, or more than the memory has room
for. -/
theorem makeRemix_failure [Memory] {e : RemixError Float}
    (hextract : ∀ o, ∃ beats, extract o buffer = .ok beats ∧ beats.length < 2 ^ 53)
    (hframes : buffer.frameCount < 2 ^ 53)
    (hrun : (makeRemix extract drawn buffer settings).outcome = .error e) :
    (∃ kind, e.kind? = some kind)
      ∨ e = .track .impossibleLength ∧ ∃ o, settings.resolve drawn = .ok o
        ∧ (Scalar.whole (frameTarget o.targetDurationSeconds buffer.sampleRate) = .posInf
          ∨ ∃ n : ℕ, Memory.longest < n
            ∧ Scalar.whole (frameTarget o.targetDurationSeconds buffer.sampleRate) = .int n) := by
  rcases makeRemix_cases extract drawn buffer settings with
    ⟨fault, -, hmake⟩ | ⟨o, e', -, hsource, hmake⟩ | ⟨o, ho, hsource, hmake⟩ <;> rw [hmake] at hrun
  · obtain rfl := Except.error.inj hrun
    exact .inl ⟨_, rfl⟩
  · obtain rfl := Except.error.inj hrun
    exact .inl (exists_kind_of_checkSource hsource)
  obtain ⟨events, -, h⟩ := exists_course hrun
  obtain ⟨beats, hbeats, hlength⟩ := hextract o.analysis
  cases h with
  | notExtracted h =>
    rw [hbeats] at h
    cases h
  | noBeats => exact .inl ⟨_, rfl⟩
  | notConnected _ _ h =>
    rcases of_connect_eq_error h with ⟨-, rfl⟩ | ⟨rule, -, rfl⟩
    · exact .inl ⟨_, rfl⟩
    · exact .inl ⟨_, rfl⟩
  | rejected => exact .inl ⟨_, rfl⟩
  | noTrack hbeats' hne hconnect _ h =>
    obtain rfl := Except.ok.inj (hbeats'.symm.trans hbeats)
    obtain ⟨fault, hfault, rfl⟩ := mapError_eq_error.mp h
    cases course_of_generateTrack hfault with
    | impossibleLength hnone =>
      obtain ⟨a, ha, hpositive⟩ := (RemixSettings.resolve_eq_ok.mp ho).value?_target
      obtain ⟨r, hr, hrate⟩ := value?_sampleRate hsource
      exact .inr ⟨rfl, o, ho, whole_frameTarget_of_none ha hpositive.le hr hrate.le hnone⟩
    -- neither a neighbor that is no beat nor a slice without frames gets past the checks
    | lost hempty hspans hwalk =>
      obtain ⟨journey, hjourney⟩ :=
        exists_walk_of_connect hframes hsource hlength hconnect hempty hspans _ _ _
      rw [hjourney] at hwalk
      cases hwalk
    | _ => exact .inl ⟨_, rfl⟩

/-- A target of ten to the 308 seconds. -/
def forever : RemixSettings Float :=
  { targetDurationSeconds := Setting.ofNumber 1e308, seed := Setting.ofNumber 1 }

/-- At two frames a second, that is more than the largest double. -/
theorem makeRemix_failure_forever :
    ∃ o, forever.resolve 0.25 = .ok o
      ∧ Scalar.whole (frameTarget o.targetDurationSeconds fourFrames.sampleRate) = .posInf
      ∧ (makeRemix (.constant twins) 0.25 fourFrames forever).outcome
          = .error (.track .impossibleLength) := by
  have hrun : (match forever.resolve 0.25,
        (makeRemix (.constant twins) 0.25 fourFrames forever).outcome with
      | .ok o, .error e => decide (e.kind? = none
          ∧ Scalar.whole (frameTarget o.targetDurationSeconds fourFrames.sampleRate) = .posInf)
      | _, _ => false) = true := by decide +kernel
  split at hrun
  · rename_i o e ho he
    obtain ⟨hkind, hinf⟩ := of_decide_eq_true hrun
    rcases makeRemix_failure (fun _ => ⟨twins, rfl, by decide⟩) (by decide) he with
      ⟨kind, hkind'⟩ | ⟨rfl, -⟩
    · rw [hkind] at hkind'
      cases hkind'
    · exact ⟨o, ho, hinf, he⟩
  · cases hrun

/-- So not every failure is of one of the four kinds. -/
theorem not_makeRemix_kind :
    ¬∀ (beats : List (Beat Float)) (drawn : Float) (buffer : SampleBuffer Float)
      (settings : RemixSettings Float) (e : RemixError Float),
      (makeRemix (.constant beats) drawn buffer settings).outcome = .error e →
        ∃ kind, e.kind? = some kind := by
  intro h
  have hrun : (match (makeRemix (.constant twins) 0.25 fourFrames forever).outcome with
      | .ok _ => false
      | .error e => e.kind?.isNone) = true := by decide +kernel
  split at hrun
  · cases hrun
  · rename_i e he
    obtain ⟨kind, hkind⟩ := h twins 0.25 fourFrames forever e he
    rw [hkind] at hrun
    cases hrun

end

end EndlessRemix
