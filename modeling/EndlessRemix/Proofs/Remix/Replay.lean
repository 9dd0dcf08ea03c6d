import EndlessRemix.Proofs.Remix.Make
import EndlessRemix.Proofs.Walk.Track

/-!
# Making a remix again

A finished remix hands over settings that ask for exactly the options it was made with. They hold a
seed, so nothing is drawn for them, and a walk depends on nothing beside the options, the buffer and
the beats. The same remix comes out, with the same events on the way, even if the extractor hands
over the beats with the neighbors that the first remix has given them.
-/

namespace EndlessRemix

/-- An extractor finds the beats of a song again, though they may carry other neighbors. -/
def Extractor.Repeats {R : Type} (extract extract' : Extractor R) (buffer : SampleBuffer R) : Prop :=
  ∀ o beats, extract o buffer = .ok beats →
    ∃ beats', extract' o buffer = .ok beats' ∧ SameBeats beats' beats

section

variable {extract extract' : Extractor Float} {drawn : Float} {buffer : SampleBuffer Float}
  {settings : RemixSettings Float} {r : Remix Float}

/-- The settings of a finished remix draw no seed, give its options and themselves again, and make
the same remix. -/
theorem makeRemix_replay [Memory] (hdrawn : settings.seed = none → 0 ≤ drawn ∧ drawn < 1)
    (hextract : extract.Repeats extract' buffer)
    (hrun : (makeRemix extract drawn buffer settings).outcome = .ok r) (drawn' : Float) :
    settings.resolve drawn = .ok r.options
      ∧ r.replay.seed.isSome = true
      ∧ r.replay.resolve drawn' = .ok r.options
      ∧ (r.replay.resolve drawn').map RemixOptions.settings = .ok r.replay
      ∧ makeRemix extract' drawn' buffer r.replay = makeRemix extract drawn buffer settings := by
  obtain ⟨o, ho, hsource, hmade⟩ := of_makeRemix hrun
  obtain ⟨beats, c, track, hparts⟩ := exists_madeFrom hmade
  obtain ⟨beats', hbeats', hsame⟩ := hextract _ _ hparts.extracted
  obtain rfl : r.options = o := congrArg Remix.options hparts.parts
  have hgives := (RemixSettings.resolve_eq_ok.mp ho).again hdrawn drawn'
  have hreplay : r.replay.resolve drawn' = .ok r.options := RemixSettings.resolve_eq_ok.mpr hgives
  refine ⟨ho, rfl, hreplay, by rw [hreplay]; rfl, ?_⟩
  rw [makeRemix_of_resolve hreplay, makeRemix_of_resolve ho,
    remixWith_congr hparts.extracted hbeats' hsame]

end

/-- Three and a half seconds, in bars of one beat. -/
def briefly : RemixSettings Float :=
  { targetDurationSeconds := Setting.ofNumber 3.5, beatsPerBar := Setting.ofNumber 1 }

/-- The twins are walked with a drawn seed. They are walked so again when another seed is drawn and
they come without their neighbors. -/
theorem makeRemix_replay_twins :
    ∃ r : Remix Float, (makeRemix (.constant twins) 0.25 fourFrames briefly).outcome = .ok r
      ∧ r.options.seed = 250000000
      ∧ r.replay.resolve 0.75 = .ok r.options
      ∧ (makeRemix (.constant (withoutNeighbors twins)) 0.75 fourFrames r.replay).outcome
          = .ok r := by
  have hrun : (match (makeRemix (.constant twins) 0.25 fourFrames briefly).outcome with
      | .ok r => decide (r.options.seed = (250000000 : Float))
      | .error _ => false) = true := by decide +kernel
  have hdrawn : (0 : Float) ≤ 0.25 ∧ (0.25 : Float) < 1 := by decide +kernel
  have hextract : (Extractor.constant twins).Repeats (.constant (withoutNeighbors twins))
      fourFrames := by
    intro o beats hbeats
    obtain rfl : twins = beats := Except.ok.inj hbeats
    exact ⟨withoutNeighbors twins, rfl, rfl⟩
  split at hrun
  · rename_i r hr
    obtain ⟨-, -, hreplay, -, hsame⟩ := makeRemix_replay (fun _ => hdrawn) hextract hr 0.75
    exact ⟨r, hr, of_decide_eq_true hrun, hreplay, (congrArg Journaled.outcome hsame).trans hr⟩
  · cases hrun

end EndlessRemix
