import EndlessRemix.Proofs.Analysis.Click
import EndlessRemix.Proofs.Analysis.Contract
import EndlessRemix.Proofs.Remix.Failure

/-!
# Remixes of analyzed songs

A song in which the analyzer finds a beat is always remixed, if its graph may have no edge and if
the memory has room for the frames that are asked for: its beats obey the rules, and no walk over
them is lost.
-/

namespace EndlessRemix

/-- There are no more beats than frames. -/
lemma length_beatBounds_le {R : Type} [Scalar R] (buffer : SampleBuffer R) (o : AnalysisOptions R)
    {least : ℕ} (hleast : 0 < least) :
    (buffer.beatBounds o least).length ≤ buffer.frameCount := by
  have hstarts : ((buffer.beatBounds o least).map Prod.fst).Pairwise (· < ·) := by
    rw [List.pairwise_map]
    apply pairwise_beatBounds.imp_of_mem
    rintro ⟨start, stop⟩ q hp - hle
    have hlength := (of_mem_beatBounds hleast hp).1
    show start < q.1
    dsimp only at hle
    omega
  have hsubset : (buffer.beatBounds o least).map Prod.fst ⊆ List.range buffer.frameCount := by
    intro start hstart
    obtain ⟨⟨start, stop⟩, hmem, rfl⟩ := List.mem_map.mp hstart
    have hbounds := of_mem_beatBounds hleast hmem
    rw [List.mem_range]
    omega
  have hnodup : ((buffer.beatBounds o least).map Prod.fst).Nodup := hstarts.imp Nat.ne_of_lt
  simpa using (hnodup.subperm hsubset).length_le

-- at fifty frames a second, a click after twenty of them ends a beat
example : (⟨50, [Array.ofFn fun i : Fin 22 => if i.val = 20 then ⟨0xBF800000⟩ else ⟨0⟩]⟩
    : SampleBuffer Float).beatBounds .standard 16 = [(0, 20)] := by decide +kernel

section

variable [Memory] {buffer : SampleBuffer Float} {settings : RemixSettings Float} {drawn : Float}
  {o : RemixOptions Float} {rate k : ℕ} {beats : List (Beat Float)}

/-- A song has fewer beats than doubles can count. -/
lemma Analyzable.length_lt (h : Analyzable buffer o.analysis rate k)
    (hanalyzed : analyzeBeats buffer o.analysis = .ok beats) : beats.length < 2 ^ 53 := by
  rw [h.length_eq hanalyzed]
  calc (buffer.beatBounds o.analysis (2 ^ k)).length ≤ buffer.frameCount :=
        length_beatBounds_le buffer o.analysis (by positivity)
    _ < 2 ^ 53 := lt_of_le_of_lt h.timed.frames_le (by norm_num)

/-- There is a track over the connected beats of a song, if the memory has room for it. -/
theorem Analyzable.exists_track {c : Connection Float} (h : Analyzable buffer o.analysis rate k)
    (hgives : settings.Gives drawn o) (hanalyzed : analyzeBeats buffer o.analysis = .ok beats)
    (hne : beats ≠ []) (hconnect : connect o.graph beats = .ok c)
    (hlength : (Scalar.whole
      (frameTarget o.targetDurationSeconds buffer.sampleRate)).toLength?.isSome = true) :
    ∃ track, o.track buffer c.beats = .ok track := by
  have hframes : buffer.frameCount < 2 ^ 53 := lt_of_le_of_lt h.timed.frames_le (by norm_num)
  cases htrack : o.track buffer c.beats with
  | ok track => exact ⟨track, rfl⟩
  | error e =>
    exfalso
    obtain ⟨fault, hfault, -⟩ := mapError_eq_error.mp htrack
    have hkind := hgives.kind?_of_generateTrack hfault
    cases course_of_generateTrack hfault with
    | duration => exact hkind rfl
    | probability => exact hkind rfl
    | noBeats hempty =>
      have hsame := (sameBeats_of_connect hconnect).length_eq
      rw [hempty] at hsame
      exact hne (List.length_eq_zero_iff.mp hsame.symm)
    | buffer hbuffer =>
      rw [h.check] at hbuffer
      cases hbuffer
    | span hspan =>
      obtain ⟨spans, hspans⟩ := h.exists_spans_of_connect hanalyzed hconnect
      rw [hspans] at hspan
      cases hspan
    | impossibleLength hnone =>
      rw [hnone] at hlength
      cases hlength
    | lost hempty hspans hwalk =>
      obtain ⟨journey, hjourney⟩ := exists_walk_of_connect hframes h.checkSource_eq
        (h.length_lt hanalyzed) hconnect hempty hspans _ _ _
      rw [hjourney] at hwalk
      cases hwalk

/-- A song with a beat is remixed. -/
theorem Analyzable.exists_remix (h : Analyzable buffer o.analysis rate k) (hk : k < 30)
    (hroom : 2 ^ k ≤ Memory.longest) (hsettings : settings.resolve drawn = .ok o)
    (hpolicy : o.degenerateGraph = .warn)
    (hbounds : buffer.beatBounds o.analysis (2 ^ k) ≠ [])
    (hlength : (Scalar.whole
      (frameTarget o.targetDurationSeconds buffer.sampleRate)).toLength?.isSome = true) :
    ∃ remix, (makeRemix .analyzer drawn buffer settings).outcome = .ok remix := by
  have hgives := RemixSettings.resolve_eq_ok.mp hsettings
  obtain ⟨beats, hanalyzed⟩ := h.exists_beats hk hroom
  have hextract : Extractor.analyzer o.analysis buffer = .ok beats := mapError_eq_ok.mpr hanalyzed
  rw [makeRemix_of_resolve hsettings, h.checkSource_eq]
  show ∃ remix, (remixWith .analyzer buffer o).outcome = .ok remix
  cases hrun : (remixWith .analyzer buffer o).outcome with
  | ok remix => exact ⟨remix, rfl⟩
  | error e =>
    exfalso
    obtain ⟨events, -, hcourse⟩ := exists_course hrun
    cases hcourse with
    | notExtracted hfault =>
      rw [hextract] at hfault
      cases hfault
    | noBeats hnone =>
      rw [hextract] at hnone
      obtain rfl := Except.ok.inj hnone
      exact hbounds (List.length_eq_zero_iff.mp (h.length_eq hanalyzed).symm)
    | notConnected hbeats hne hfault =>
      rw [hextract] at hbeats
      obtain rfl := Except.ok.inj hbeats
      rcases of_connect_eq_error hfault with ⟨hempty, -⟩ | ⟨rule, hrule, -⟩
      · exact hne hempty
      · rw [h.checkBeats_eq hanalyzed] at hrule
        cases hrule
    | rejected _ _ _ _ hreject =>
      rw [hpolicy] at hreject
      cases hreject
    | noTrack hbeats hne hconnect _ htrack =>
      rw [hextract] at hbeats
      obtain rfl := Except.ok.inj hbeats
      obtain ⟨track, hmade⟩ := h.exists_track hgives hanalyzed hne hconnect hlength
      rw [hmade] at htrack
      cases htrack

end

/-! ## A click -/

/-- Twenty seconds of silence and a click, at fifty frames a second. -/
def clickSong : SampleBuffer Float :=
  ⟨Scalar.ofNat 50, [Array.ofFn fun i : Fin 1026 => if i.val = 1024 then ⟨0xBF800000⟩ else ⟨0⟩]⟩

/-- A buffer of one channel passes. -/
lemma check_singleton {R : Type} [Scalar R] (sampleRate : R) (channel : Array Sample) :
    (⟨sampleRate, [channel]⟩ : SampleBuffer R).check = .ok () := by
  refine check_eq_ok.mpr ⟨List.cons_ne_nil _ _, fun other hmem => ?_⟩
  rw [List.mem_singleton.mp hmem]
  rfl

lemma frameCount_clickSong : clickSong.frameCount = 1026 := Array.size_ofFn

lemma mono_clickSong : clickSong.mono = click 1024 1 (-1) := by
  have hloud : (Sample.value ⟨0xBF800000⟩ : Float) = -1 := by decide
  have hsilent : (Sample.value ⟨0⟩ : Float) = 0 := by decide
  show (Array.ofFn _).map Sample.value = _
  apply Array.ext
  · simp [click]
  · intro i hi _
    simp only [Array.getElem_map, Array.getElem_ofFn, click, Nat.div_one]
    split_ifs
    · exact hloud
    · exact hsilent

/-- At fifty frames a second an envelope frame is one frame of the song, so the click is the only
onset after the start. -/
lemma beatBounds_clickSong : clickSong.beatBounds .standard (2 ^ 10) = [(0, 1024)] := by
  have hframe : frameSize (Scalar.ofNat 50 : Float) .standard = .int 1 := by decide
  have hgap : (leastGap (.standard : AnalysisOptions Float)).isBelow 1024 = true := by decide
  have hloud : StandsOut 1 (-1) (AnalysisOptions.standard : AnalysisOptions Float).onsetThreshold := by
    constructor <;> decide +kernel
  have honsets := onsets_click (by norm_num) hframe hgap hloud
  rw [SampleBuffer.beatBounds, mono_clickSong]
  exact congrArg (segments (2 ^ 10)) honsets

lemma analyzable_clickSong : Analyzable clickSong .standard 50 10 where
  timed :=
    { real_eq := RoundedArithmetic.real?_ofNat (by norm_num)
      pos := by norm_num
      lt := by norm_num
      frames_le := by rw [frameCount_clickSong]; norm_num
      seconds_le := by rw [frameCount_clickSong]; norm_num }
  check := check_singleton _ _
  isWhole := by decide
  window := by
    have hwhole : Scalar.whole (AnalysisOptions.standard : AnalysisOptions Float).windowSize
        = .int 1024 := by decide
    rw [hwhole]
    norm_num
  one_le := by norm_num

/-- The click is remixed with options that are like the standard ones where it matters. -/
lemma exists_remix_clickSong [Memory] {settings : RemixSettings Float} {drawn : Float}
    {o : RemixOptions Float} (hroom : 2 ^ 10 ≤ Memory.longest)
    (hsettings : settings.resolve drawn = .ok o) (hanalysis : o.analysis = .standard)
    (hpolicy : o.degenerateGraph = .warn)
    (hlength : (Scalar.whole
      (frameTarget o.targetDurationSeconds (Scalar.ofNat 50))).toLength?.isSome = true) :
    ∃ remix, (makeRemix .analyzer drawn clickSong settings).outcome = .ok remix := by
  refine Analyzable.exists_remix (k := 10) (hanalysis ▸ analyzable_clickSong) (by norm_num) hroom
    hsettings hpolicy ?_ hlength
  rw [hanalysis, beatBounds_clickSong]
  exact List.cons_ne_nil _ _

end EndlessRemix
