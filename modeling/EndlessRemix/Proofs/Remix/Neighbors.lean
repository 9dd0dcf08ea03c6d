import EndlessRemix.Proofs.Remix.Degenerate

/-!
# The neighbors in a remix

Extracted beats may carry neighbors already, also such that are no beats of the song. None of them
reaches the walk: whether a graph can be built, the beats are too few or no pair is near enough, the
walk goes over the neighbors by definition. So a remix of beats that differ in their old neighbors
only is the same remix, and fails in the same way if it fails.
-/

namespace EndlessRemix

/-- Two extractors find the same beats of a song, whatever neighbors these carry, or fail alike. -/
def Extractor.Agree {R : Type} (extract extract' : Extractor R) (buffer : SampleBuffer R) : Prop :=
  ∀ o, (extract' o buffer).map withoutNeighbors = (extract o buffer).map withoutNeighbors

section

variable {R : Type} [Scalar R] {extract extract' : Extractor R} {buffer : SampleBuffer R}

/-- A remix does not depend on the neighbors that the beats had before. -/
theorem remixWith_of_agree [Memory] (h : extract.Agree extract' buffer) (o : RemixOptions R) :
    remixWith extract' buffer o = remixWith extract buffer o := by
  have ho := h o.analysis
  cases hbeats : extract o.analysis buffer with
  | ok beats =>
    cases hbeats' : extract' o.analysis buffer with
    | ok beats' =>
      rw [hbeats, hbeats'] at ho
      exact remixWith_congr hbeats hbeats' (Except.ok.inj ho)
    | error e =>
      rw [hbeats, hbeats'] at ho
      cases ho
  | error e =>
    cases hbeats' : extract' o.analysis buffer with
    | ok beats' =>
      rw [hbeats, hbeats'] at ho
      cases ho
    | error e' =>
      rw [hbeats, hbeats'] at ho
      obtain rfl : e' = e := Except.error.inj ho
      rw [remixWith, hbeats', remixWith, hbeats]

/-- A lone beat has no neighbor by definition. -/
lemma neighborsIn_singleton (o : GraphOptions R) (a b : Beat R) : neighborsIn o [b] 0 a = [] := by
  rw [List.eq_nil_iff_forall_not_mem]
  intro n hn
  obtain ⟨j, c, hc, hj, -, -⟩ := mem_neighborsIn.mp hn
  have hlt : j < 1 := (List.getElem?_eq_some_iff.mp hc).1
  omega

/-- However the beats are connected, each is given its neighbors by definition. -/
theorem getElem?_of_connect [SymmetricDifference R] {o : GraphOptions R} {beats : List (Beat R)}
    {c : Connection R} (h : connect o beats = .ok c) {i : ℕ} {a : Beat R}
    (ha : beats[i]? = some a) :
    c.beats[i]? = some { a with neighbors := (neighborsIn o beats i a).toArray } := by
  obtain ⟨-, ⟨hbuild, -⟩ | ⟨⟨beat, rfl⟩, rfl⟩⟩ := of_connect h
  · obtain ⟨-, -, hconnected⟩ := of_buildGraph hbuild
    rw [hconnected]
    exact getElem?_withNeighbors ha
  · -- a lone beat, whose old neighbors are taken away
    have hlt : i < 1 := (List.getElem?_eq_some_iff.mp ha).1
    obtain rfl : i = 0 := by omega
    obtain rfl : beat = a := Option.some.inj ha
    rw [neighborsIn_singleton]
    rfl

end

section

variable {extract extract' : Extractor Float} {drawn drawn' : Float} {buffer : SampleBuffer Float}
  {settings : RemixSettings Float}

/-- Old neighbors of extracted beats play no part: with two extractors that find the same beats, the
same happens and the same comes out, an error or a remix. The beats of a remix carry their neighbors
by definition and no others, and it is these beats that the walk went over. -/
theorem makeRemix_agree [Memory] (hseed : settings.seed = none → drawn' = drawn)
    (hagree : extract.Agree extract' buffer) :
    makeRemix extract' drawn' buffer settings = makeRemix extract drawn buffer settings
      ∧ ∀ r, (makeRemix extract drawn buffer settings).outcome = .ok r →
        ∃ (beats : List (Beat Float)) (track : Track Float UInt32),
          extract r.options.analysis buffer = .ok beats
          ∧ r.beats.length = beats.length
          ∧ (∀ (i : ℕ) (a : Beat Float), beats[i]? = some a → r.beats[i]? = some
              { a with neighbors := (neighborsIn r.options.graph beats i a).toArray })
          ∧ r.options.track buffer r.beats = .ok track
          ∧ r.output = track.output ∧ r.walk = track.report := by
  constructor
  · have hresolve : settings.resolve drawn' = settings.resolve drawn := by
      cases hgiven : settings.seed with
      | none => rw [hseed hgiven]
      | some setting =>
        rw [RemixSettings.resolve, RemixSettings.resolve, hgiven]
    simp only [makeRemix, hresolve, remixWith_of_agree hagree]
  · intro r hrun
    obtain ⟨o, -, -, hmade⟩ := of_makeRemix hrun
    obtain ⟨beats, c, track, hparts⟩ := exists_madeFrom hmade
    obtain rfl := hparts.parts
    refine ⟨beats, track, hparts.extracted, (sameBeats_of_connect hparts.connected).length_eq, ?_,
      hparts.walked, rfl, rfl⟩
    intro i a ha
    exact getElem?_of_connect hparts.connected ha

/-- The twins with neighbors that are no beats of the song. -/
def strayTwins : List (Beat Float) :=
  twins.map fun beat => { beat with neighbors := #[⟨.beat 9, 0⟩, ⟨.stray 0.5, 0⟩] }

/-- Three and a half seconds in bars of one beat, with a seed. -/
def inOnes : RemixSettings Float :=
  { targetDurationSeconds := Setting.ofNumber 3.5, seed := Setting.ofNumber 1,
    beatsPerBar := Setting.ofNumber 1 }

/-- The stray neighbors of the twins are lost: the same remix is made of them, and in it each twin
has the other one as its neighbor. -/
theorem makeRemix_agree_strayTwins :
    ∃ r, (makeRemix (.constant twins) 0.25 fourFrames (inOnes.under .reject)).outcome = .ok r
      ∧ (makeRemix (.constant strayTwins) 0.75 fourFrames (inOnes.under .reject)).outcome = .ok r
      ∧ ∀ (i : ℕ) (a : Beat Float), twins[i]? = some a →
          r.beats[i]? = some { a with neighbors := #[⟨.beat (1 - i), 0⟩] } := by
  have hrun : (match (makeRemix (.constant twins) 0.25 fourFrames (inOnes.under .reject)).outcome with
      | .ok r => decide ((twins.zipIdx.map fun b => neighborsIn r.options.graph twins b.2 b.1)
          = [[⟨.beat 1, 0⟩], [⟨.beat 0, 0⟩]])
      | .error _ => false) = true := by decide +kernel
  have hseed : (inOnes.under .reject).seed = none → (0.75 : Float) = 0.25 := by rintro ⟨⟩
  have hagree : (Extractor.constant twins).Agree (.constant strayTwins) fourFrames :=
    fun _ => rfl
  obtain ⟨hsame, hmade⟩ := makeRemix_agree hseed hagree
  split at hrun
  · rename_i r hr
    obtain ⟨beats, track, hbeats, -, hneighbors, -⟩ := hmade r hr
    obtain rfl : twins = beats := Except.ok.inj hbeats
    have hlists := of_decide_eq_true hrun
    refine ⟨r, hr, (congrArg Journaled.outcome hsame).trans hr, fun i a ha => ?_⟩
    have hlist : neighborsIn r.options.graph twins i a = [⟨.beat (1 - i), 0⟩] := by
      match i, ha with
      | 0, ha =>
        rw [← Option.some.inj ha]
        exact (List.cons.inj hlists).1
      | 1, ha =>
        rw [← Option.some.inj ha]
        exact (List.cons.inj (List.cons.inj hlists).2).1
      | _ + 2, ha => cases ha
    rw [hneighbors i a ha, hlist]
  · cases hrun

end

end EndlessRemix
