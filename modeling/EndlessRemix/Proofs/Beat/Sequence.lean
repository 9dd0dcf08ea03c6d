import EndlessRemix.Beat.Sequence
import EndlessRemix.Proofs.Except

/-!
# What the rules of a sequence say

A list of beats is accepted exactly if it obeys the rules beat by beat, and for every two neighbors.
-/

namespace EndlessRemix

variable {R : Type} [Scalar R]

/-- A beat lasts for some time and starts at some time. -/
structure Beat.Timely (beat : Beat R) : Prop where
  duration_pos : 0 < beat.duration
  duration_finite : Scalar.isFinite beat.duration = true
  start_nonneg : 0 ≤ beat.start
  start_finite : Scalar.isFinite beat.start = true

lemma Beat.check_eq_ok {beat : Beat R} {position : ℕ} : beat.check position = .ok ()
    ↔ Scalar.same beat.index (Scalar.ofNat position) = true ∧ beat.Timely := by
  unfold Beat.check
  constructor
  · intro h
    by_cases hindex : ¬Scalar.same beat.index (Scalar.ofNat position) = true
    · rw [if_pos hindex] at h
      cases h
    rw [if_neg hindex] at h
    by_cases hduration : ¬0 < beat.duration ∨ ¬Scalar.isFinite beat.duration = true
    · rw [if_pos hduration] at h
      cases h
    rw [if_neg hduration] at h
    by_cases hstart : ¬0 ≤ beat.start ∨ ¬Scalar.isFinite beat.start = true
    · rw [if_pos hstart] at h
      cases h
    rw [not_or, not_not, not_not] at hduration hstart
    exact ⟨not_not.mp hindex, hduration.1, hduration.2, hstart.1, hstart.2⟩
  · rintro ⟨hindex, h⟩
    rw [if_neg (not_not.mpr hindex), if_neg, if_neg]
    · rw [not_or, not_not, not_not]
      exact ⟨h.start_nonneg, h.start_finite⟩
    · rw [not_or, not_not, not_not]
      exact ⟨h.duration_pos, h.duration_finite⟩

/-- A beat and the next one obey the rules: the starts increase, and there is no overlap beyond the
tolerance. -/
structure Beat.Precedes (previous beat : Beat R) : Prop where
  start : ¬beat.start ≤ previous.start
  overlap : ¬beat.start + overlapTolerance < previous.start + previous.duration

lemma Beat.checkNext_eq_ok {previous beat : Beat R} (position : ℕ) :
    previous.checkNext position beat = .ok () ↔ previous.Precedes beat := by
  unfold Beat.checkNext
  split_ifs with hstart hoverlap
  · exact iff_of_false nofun fun h => h.start hstart
  · exact iff_of_false nofun fun h => h.overlap hoverlap
  · exact iff_of_true rfl ⟨hstart, hoverlap⟩

/-! ## Sequences -/

/-- The beats from a position on have the numbers of their positions, and each is timely. -/
def Numbered (position : ℕ) (beats : List (Beat R)) : Prop :=
  ∀ i beat, beats[i]? = some beat →
    Scalar.same beat.index (Scalar.ofNat (position + i)) = true ∧ beat.Timely

lemma numbered_cons {position : ℕ} {beat : Beat R} {rest : List (Beat R)} :
    Numbered position (beat :: rest)
      ↔ (Scalar.same beat.index (Scalar.ofNat position) = true ∧ beat.Timely)
        ∧ Numbered (position + 1) rest := by
  constructor
  · intro h
    refine ⟨h 0 beat rfl, ?_⟩
    intro i b hb
    have hlater := h (i + 1) b hb
    rwa [← Nat.add_assoc, Nat.add_right_comm] at hlater
  · rintro ⟨hfirst, hrest⟩ i b hb
    cases i with
    | zero =>
      obtain rfl : beat = b := Option.some.inj hb
      exact hfirst
    | succ i =>
      have hlater := hrest i b hb
      rwa [Nat.add_right_comm, Nat.add_assoc] at hlater

lemma checkBeatsAfter_eq_ok {previous : Beat R} {position : ℕ} {beats : List (Beat R)} :
    checkBeatsAfter previous position beats = .ok ()
      ↔ Numbered position beats ∧ (previous :: beats).IsChain Beat.Precedes := by
  induction beats generalizing previous position with
  | nil => exact iff_of_true rfl ⟨by simp [Numbered], List.isChain_singleton previous⟩
  | cons beat rest ih =>
    rw [checkBeatsAfter, numbered_cons, List.isChain_cons_cons, ← Beat.check_eq_ok,
      ← Beat.checkNext_eq_ok position]
    simp only [bind_eq_ok, ih]
    constructor
    · rintro ⟨⟨⟩, hcheck, ⟨⟩, hnext, hnumbered, hchain⟩
      exact ⟨⟨hcheck, hnumbered⟩, hnext, hchain⟩
    · rintro ⟨⟨hcheck, hnumbered⟩, hnext, hchain⟩
      exact ⟨(), hcheck, (), hnext, hnumbered, hchain⟩

/-- A list of beats is accepted if they are numbered from zero on, each is timely, and each precedes
the next one. -/
theorem checkBeats_eq_ok {beats : List (Beat R)} : checkBeats beats = .ok ()
    ↔ Numbered 0 beats ∧ beats.IsChain Beat.Precedes := by
  cases beats with
  | nil => exact iff_of_true rfl ⟨by simp [Numbered], List.isChain_nil⟩
  | cons beat rest =>
    rw [checkBeats, numbered_cons, ← Beat.check_eq_ok]
    simp only [bind_eq_ok, checkBeatsAfter_eq_ok]
    constructor
    · rintro ⟨⟨⟩, hcheck, hnumbered, hchain⟩
      exact ⟨⟨hcheck, hnumbered⟩, hchain⟩
    · rintro ⟨⟨hcheck, hnumbered⟩, hchain⟩
      exact ⟨(), hcheck, hnumbered, hchain⟩

section

variable {beats : List (Beat R)}

/-- The beats of an accepted list are timely. -/
theorem timely_of_checkBeats (h : checkBeats beats = .ok ()) : ∀ beat ∈ beats, beat.Timely := by
  intro beat hmem
  obtain ⟨i, hi⟩ := List.mem_iff_getElem?.mp hmem
  exact ((checkBeats_eq_ok.mp h).1 i beat hi).2

/-- The beats of an accepted list are numbered by their positions. -/
theorem same_index_of_checkBeats (h : checkBeats beats = .ok ()) {i : ℕ} {beat : Beat R}
    (hbeat : beats[i]? = some beat) : Scalar.same beat.index (Scalar.ofNat i) = true := by
  have hnumbered := (checkBeats_eq_ok.mp h).1 i beat hbeat
  rw [Nat.zero_add] at hnumbered
  exact hnumbered.1

/-- The beats of an accepted list precede one another. -/
theorem isChain_of_checkBeats (h : checkBeats beats = .ok ()) : beats.IsChain Beat.Precedes :=
  (checkBeats_eq_ok.mp h).2

end

/-- A beat keeps the rules at its position in a list. -/
structure Beat.KeepsRules (beats : List (Beat R)) (position : ℕ) (beat : Beat R) : Prop where
  index : Scalar.same beat.index (Scalar.ofNat position) = true
  timely : beat.Timely
  next : ∀ i previous, i + 1 = position → beats[i]? = some previous → previous.Precedes beat

/-- A list of beats is accepted if every beat keeps the rules. -/
theorem checkBeats_eq_ok_iff {beats : List (Beat R)} : checkBeats beats = .ok ()
    ↔ ∀ (i : ℕ) (beat : Beat R), beats[i]? = some beat → beat.KeepsRules beats i := by
  rw [checkBeats_eq_ok, List.isChain_iff_getElem]
  constructor
  · rintro ⟨hnumbered, hchain⟩ i beat hbeat
    obtain ⟨hindex, htimely⟩ := hnumbered i beat hbeat
    rw [Nat.zero_add] at hindex
    refine ⟨hindex, htimely, ?_⟩
    rintro j previous rfl hprevious
    obtain ⟨hj, rfl⟩ := List.getElem?_eq_some_iff.mp hbeat
    obtain ⟨_, rfl⟩ := List.getElem?_eq_some_iff.mp hprevious
    exact hchain j hj
  · intro h
    constructor
    · intro i beat hbeat
      rw [Nat.zero_add]
      exact ⟨(h i beat hbeat).index, (h i beat hbeat).timely⟩
    · intro i hi
      exact (h (i + 1) _ (List.getElem?_eq_getElem hi)).next i _ rfl
        (List.getElem?_eq_getElem (by omega))

end EndlessRemix
