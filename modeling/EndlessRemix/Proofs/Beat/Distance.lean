import EndlessRemix.Proofs.Beat.Bar
import EndlessRemix.Proofs.Beat.Unweighted
import EndlessRemix.Proofs.Number.Size

/-!
# The distance of two beats

A distance is the same in both directions, and an entry that a vector lacks counts as zero, so zeros
at the end of a vector do not matter. Both are laws of the arithmetic and need no bound on numbers:
of a difference only the size counts, and a zero adds nothing to a sum of squares. Between finite
features the distance is at least zero, as long as nothing infinite is weighted with zero, and it is
zero if the features agree.
-/

namespace EndlessRemix

variable {R : Type} [Scalar R]

/-! ## Padding with zeros -/

/-- A list of zeros, with whatever signs. -/
def Zeros (zs : List R) : Prop := ∀ z ∈ zs, Scalar.same z 0 = true

section

variable [NeutralZero R]

open NeutralZero (add_zero sq_zero sq_zero_sub)

/-- Zeros read like the entries of a vector that is at its end. -/
lemma addSquaredDifferences_zeros {sum : R} (hsum : SumOfSquares sum) {zs : List R}
    (hzs : Zeros zs) (ys : List R) :
    addSquaredDifferences sum zs ys = addSquaredDifferences sum [] ys := by
  induction zs generalizing sum ys with
  | nil => rfl
  | cons z zs ih =>
    obtain ⟨hz, hzs⟩ := List.forall_mem_cons.mp hzs
    cases ys with
    | nil =>
      -- both vectors are at their ends, and a square of zero is added
      have hstep : addSquaredDifferences sum (z :: zs) []
          = addSquaredDifferences (sum + (z - 0) * (z - 0)) zs [] := by rw [addSquaredDifferences]
      rw [hstep, sq_zero_sub 0 hz, sq_zero, add_zero hsum]
      exact ih hsum hzs []
    | cons y ys =>
      have hstep : addSquaredDifferences sum (z :: zs) (y :: ys)
          = addSquaredDifferences (sum + (z - y) * (z - y)) zs ys := by rw [addSquaredDifferences]
      rw [hstep, sq_zero_sub y hz]
      exact ih (hsum.add _) hzs ys

/-- So they do at the end of the first vector. -/
lemma addSquaredDifferences_append_zeros {sum : R} (hsum : SumOfSquares sum) (xs ys : List R)
    {zs : List R} (hzs : Zeros zs) :
    addSquaredDifferences sum (xs ++ zs) ys = addSquaredDifferences sum xs ys := by
  induction xs generalizing sum ys with
  | nil => exact addSquaredDifferences_zeros hsum hzs ys
  | cons x xs ih =>
    cases ys with
    | nil =>
      rw [List.cons_append, addSquaredDifferences, addSquaredDifferences]
      exact ih (hsum.add _) []
    | cons y ys =>
      rw [List.cons_append, addSquaredDifferences, addSquaredDifferences]
      exact ih (hsum.add _) ys

/-- Zeros at the ends of both vectors do not matter. -/
theorem euclideanDistance_append_zeros [SymmetricDifference R] (xs ys : List R) {zs zs' : List R}
    (hzs : Zeros zs) (hzs' : Zeros zs') :
    euclideanDistance (xs ++ zs) (ys ++ zs') = euclideanDistance xs ys := by
  have hfirst (vs ws : List R) {zs : List R} (hzs : Zeros zs) :
      euclideanDistance (vs ++ zs) ws = euclideanDistance vs ws := by
    rw [euclideanDistance, addSquaredDifferences_append_zeros .zero vs ws hzs, euclideanDistance]
  -- the second vector is the first one in the other direction
  rw [hfirst xs _ hzs, euclideanDistance_comm, hfirst ys xs hzs', euclideanDistance_comm]

end

/-- A beat with more entries in its vectors. -/
def Beat.padded (beat : Beat R) (timbre pitch : List R) : Beat R :=
  { beat with timbre := beat.timbre ++ timbre, pitch := beat.pitch ++ pitch }

/-- Every distance is the same in both directions, whatever the lengths of the vectors are, and
stays the same when zeros are appended to the vectors of either beat. -/
def MeasuresAlike (R : Type) [Scalar R] : Prop :=
  ∀ (w : Weights R) (a b : Beat R), a.distance w b = b.distance w a
    ∧ ∀ timbre pitch timbre' pitch' : List R,
        Zeros timbre → Zeros pitch → Zeros timbre' → Zeros pitch' →
          (a.padded timbre pitch).distance w (b.padded timbre' pitch') = a.distance w b

lemma measuresAlike [SymmetricDifference R] [NeutralZero R] : MeasuresAlike R := by
  intro w a b
  refine ⟨a.distance_comm w b, ?_⟩
  intro timbre pitch timbre' pitch' htimbre hpitch htimbre' hpitch'
  unfold Beat.distance Beat.padded
  dsimp only
  rw [euclideanDistance_append_zeros _ _ htimbre htimbre',
    euclideanDistance_append_zeros _ _ hpitch hpitch']

/-! ## Finite features -/

/-- All of these numbers are finite. -/
def AllFinite (xs : List R) : Prop := ∀ x ∈ xs, Scalar.isFinite x = true

instance (xs : List R) : Decidable (AllFinite xs) :=
  inferInstanceAs (Decidable (∀ x ∈ xs, Scalar.isFinite x = true))

/-- All numbers that a beat is compared by are finite. -/
structure Beat.Finite (beat : Beat R) : Prop where
  timbre : AllFinite beat.timbre
  pitch : AllFinite beat.pitch
  loudnessStart : Scalar.isFinite beat.loudnessStart = true
  loudnessMax : Scalar.isFinite beat.loudnessMax = true
  duration : Scalar.isFinite beat.duration = true
  confidence : Scalar.isFinite beat.confidence = true

/-- Two vectors agree, if zeros at their ends do not matter. -/
def AgreeUpToZeros (xs ys : List R) : Prop :=
  ∃ zs zs', Zeros zs ∧ Zeros zs'
    ∧ List.Forall₂ (fun x y => Scalar.same x y = true) (xs ++ zs) (ys ++ zs')

/-- Two beats agree in all features, if zeros at the ends of their vectors do not matter. -/
structure Beat.SoundsLike (a b : Beat R) : Prop where
  timbre : AgreeUpToZeros a.timbre b.timbre
  pitch : AgreeUpToZeros a.pitch b.pitch
  loudnessStart : Scalar.same a.loudnessStart b.loudnessStart = true
  loudnessMax : Scalar.same a.loudnessMax b.loudnessMax = true
  duration : Scalar.same a.duration b.duration = true
  confidence : Scalar.same a.confidence b.confidence = true

open Double

section

variable {sum : Float} {xs ys : List Float}

/-- Squares of differences only add to what is at least zero. -/
lemma zero_le_addSquaredDifferences (hsum : 0 ≤ sum) (hxs : AllFinite xs) (hys : AllFinite ys) :
    0 ≤ addSquaredDifferences sum xs ys := by
  have hadd {s x y : Float} (hs : 0 ≤ s) (hx : Scalar.isFinite x = true)
      (hy : Scalar.isFinite y = true) : 0 ≤ s + (x - y) * (x - y) := by
    obtain ⟨a, ha⟩ := (isFinite_iff x).mp hx
    obtain ⟨b, hb⟩ := (isFinite_iff y).mp hy
    have hsquare := zero_le_sq_sub ha hb
    exact (zero_le_add_iff (not_lt_zero_of_le hs) (not_lt_zero_of_le hsquare)).mpr ⟨hs, hsquare⟩
  fun_induction addSquaredDifferences sum xs ys with
  | case1 sum ys =>
    induction ys generalizing sum with
    | nil => exact hsum
    | cons y ys ih =>
      obtain ⟨hy, hys⟩ := List.forall_mem_cons.mp hys
      exact ih _ (hadd hsum rfl hy) hys
  | case2 sum x xs ih =>
    obtain ⟨hx, hxs⟩ := List.forall_mem_cons.mp hxs
    exact ih (hadd hsum hx rfl) hxs hys
  | case3 sum x xs y ys ih =>
    obtain ⟨hx, hxs⟩ := List.forall_mem_cons.mp hxs
    obtain ⟨hy, hys⟩ := List.forall_mem_cons.mp hys
    exact ih (hadd hsum hx hy) hxs hys

lemma zero_le_euclideanDistance (hxs : AllFinite xs) (hys : AllFinite ys) :
    0 ≤ euclideanDistance xs ys :=
  zero_le_sqrt (zero_le_addSquaredDifferences (zero_le_iff.mpr (.inl ⟨0, rfl, le_rfl⟩)) hxs hys)

/-- Entries that agree add nothing. -/
lemma value?_addSquaredDifferences_of_same (hsum : value? sum = some 0)
    (h : List.Forall₂ (fun x y => Scalar.same x y = true) xs ys) (hys : AllFinite ys) :
    value? (addSquaredDifferences sum xs ys) = some 0 := by
  induction h generalizing sum with
  | nil => exact hsum
  | @cons x y xs ys hxy _ ih =>
    obtain ⟨hy, hys⟩ := List.forall_mem_cons.mp hys
    obtain ⟨b, hb⟩ := (isFinite_iff y).mp hy
    have hdifference := value?_sub_eq (value?_of_same hxy hb) hb
    rw [addSquaredDifferences]
    exact ih (value?_add_zero hsum (value?_zero_mul hdifference hdifference le_rfl)) hys

/-- Vectors that agree are at a distance of zero. -/
lemma value?_euclideanDistance_of_agree (h : AgreeUpToZeros xs ys) (hys : AllFinite ys) :
    value? (euclideanDistance xs ys) = some 0 := by
  obtain ⟨zs, zs', hzs, hzs', hsame⟩ := h
  have hpadded : AllFinite (ys ++ zs') := by
    refine List.forall_mem_append.mpr ⟨hys, ?_⟩
    intro z hz
    exact (isFinite_iff z).mpr ⟨0, value?_of_same (hzs' z hz) value?_zero⟩
  rw [← euclideanDistance_append_zeros xs ys hzs hzs', euclideanDistance]
  exact value?_sqrt_zero (value?_addSquaredDifferences_of_same value?_zero hsame hpadded)

end

/-! ## Weighted sums -/

/-- A weight that is finite and at least zero. -/
def Proper (weight : Float) : Prop := Scalar.isFinite weight = true ∧ 0 ≤ weight

instance (weight : Float) : Decidable (Proper weight) :=
  inferInstanceAs (Decidable (Scalar.isFinite weight = true ∧ 0 ≤ weight))

/-- All weights are finite and at least zero. -/
structure Weights.Proper (w : Weights Float) : Prop where
  timbre : EndlessRemix.Proper w.timbre
  pitch : EndlessRemix.Proper w.pitch
  loudnessStart : EndlessRemix.Proper w.loudnessStart
  loudnessMax : EndlessRemix.Proper w.loudnessMax
  duration : EndlessRemix.Proper w.duration
  confidence : EndlessRemix.Proper w.confidence

section

variable {x sum weight : Float} {p : Prop}

lemma Proper.exists_value (h : Proper weight) : ∃ c, value? weight = some c ∧ 0 ≤ c := by
  obtain ⟨c, hc⟩ := (isFinite_iff weight).mp h.1
  exact ⟨c, hc, (le_iff_of_value value?_zero hc).mp h.2⟩

/-- A weighted size is never below zero; it is a number if it is finite or weighs. -/
lemma weighted_sized (hx : 0 ≤ x) (hw : Proper weight) : ¬x * weight < 0
    ∧ (0 ≤ x * weight ↔ (¬Weighs weight → Scalar.isFinite x = true)) := by
  obtain ⟨c, hc, hc0⟩ := hw.exists_value
  refine ⟨not_mul_lt_zero (not_lt_zero_of_le hx) (not_lt_zero_of_le hw.2), ?_⟩
  rw [zero_le_mul_iff hx hc hc0, Weighs, Bool.not_eq_false]

/-- So is a sum of them, if each of them is. -/
lemma add_weighted_sized (hsum : ¬sum < 0 ∧ (0 ≤ sum ↔ p)) (hx : 0 ≤ x) (hw : Proper weight) :
    ¬sum + x * weight < 0
      ∧ (0 ≤ sum + x * weight ↔ p ∧ (¬Weighs weight → Scalar.isFinite x = true)) := by
  obtain ⟨hnot, hiff⟩ := weighted_sized hx hw
  refine ⟨not_add_lt_zero hsum.1 hnot, ?_⟩
  rw [zero_le_add_iff hsum.1 hnot, hsum.2, hiff]

lemma value?_weighted_zero (hx : value? x = some 0) (hw : Proper weight) :
    value? (x * weight) = some 0 := by
  obtain ⟨c, hc, hc0⟩ := hw.exists_value
  exact value?_zero_mul hx hc hc0

/-- What finite doubles differ by is at least zero. -/
lemma zero_le_difference {x y : Float} (hx : Scalar.isFinite x = true)
    (hy : Scalar.isFinite y = true) : 0 ≤ Scalar.abs (x - y) := by
  obtain ⟨a, ha⟩ := (isFinite_iff x).mp hx
  obtain ⟨b, hb⟩ := (isFinite_iff y).mp hy
  exact zero_le_abs_sub ha hb

/-- Equal numbers do not differ. -/
lemma value?_difference_of_same {x y : Float} (h : Scalar.same x y = true)
    (hy : Scalar.isFinite y = true) : value? (Scalar.abs (x - y)) = some 0 := by
  obtain ⟨b, hb⟩ := (isFinite_iff y).mp hy
  exact value?_abs_zero (value?_sub_eq (value?_of_same h hb) hb)

end

section

variable {w : Weights Float} {a b : Beat Float}

/-- Between finite features the distance is at least zero, unless an infinite difference is weighted
with zero, and then it is no number. -/
theorem zero_le_distance_iff (hw : w.Proper) (ha : a.Finite) (hb : b.Finite) :
    0 ≤ a.distance w b ↔ a.FinitelyApart w b := by
  have h₁ := weighted_sized (zero_le_euclideanDistance ha.timbre hb.timbre) hw.timbre
  have h₂ := add_weighted_sized h₁ (zero_le_euclideanDistance ha.pitch hb.pitch) hw.pitch
  have h₃ := add_weighted_sized h₂ (zero_le_difference ha.loudnessStart hb.loudnessStart)
    hw.loudnessStart
  have h₄ := add_weighted_sized h₃ (zero_le_difference ha.loudnessMax hb.loudnessMax)
    hw.loudnessMax
  have h₅ := add_weighted_sized h₄ (zero_le_difference ha.duration hb.duration) hw.duration
  have h₆ := add_weighted_sized h₅ (zero_le_difference ha.confidence hb.confidence) hw.confidence
  refine h₆.2.trans ⟨?_, ?_⟩
  · rintro ⟨⟨⟨⟨⟨htimbre, hpitch⟩, hstart⟩, hmax⟩, hduration⟩, hconfidence⟩
    exact ⟨htimbre, hpitch, hstart, hmax, hduration, hconfidence⟩
  · rintro ⟨htimbre, hpitch, hstart, hmax, hduration, hconfidence⟩
    exact ⟨⟨⟨⟨⟨htimbre, hpitch⟩, hstart⟩, hmax⟩, hduration⟩, hconfidence⟩

/-- Beats that sound alike are at a distance of zero. -/
theorem value?_distance_of_soundsLike (hw : w.Proper) (hb : b.Finite) (h : a.SoundsLike b) :
    value? (a.distance w b) = some 0 := by
  have htimbre := value?_weighted_zero (value?_euclideanDistance_of_agree h.timbre hb.timbre)
    hw.timbre
  have hpitch := value?_weighted_zero (value?_euclideanDistance_of_agree h.pitch hb.pitch)
    hw.pitch
  have hstart := value?_weighted_zero (value?_difference_of_same h.loudnessStart hb.loudnessStart)
    hw.loudnessStart
  have hmax := value?_weighted_zero (value?_difference_of_same h.loudnessMax hb.loudnessMax)
    hw.loudnessMax
  have hduration := value?_weighted_zero (value?_difference_of_same h.duration hb.duration)
    hw.duration
  have hconfidence := value?_weighted_zero (value?_difference_of_same h.confidence hb.confidence)
    hw.confidence
  exact value?_add_zero (value?_add_zero (value?_add_zero (value?_add_zero
    (value?_add_zero htimbre hpitch) hstart) hmax) hduration) hconfidence

end

/-- Distances measure alike in both directions and with any zeros at the ends of the vectors, with
doubles, and in every arithmetic with the same three laws: of a difference only the size counts and
only the square, and a zero adds nothing to a sum of squares. With doubles, between finite features
and with finite weights at least zero, a distance is at least zero, overflowing or not, except that
an infinite difference with a weight of zero makes it no number; and it is zero if the features
agree. -/
theorem distance_symmetric_padded :
    MeasuresAlike Float
    ∧ (∀ (R : Type) [Scalar R] [SymmetricDifference R] [NeutralZero R], MeasuresAlike R)
    ∧ ∀ (w : Weights Float) (a b : Beat Float), w.Proper → a.Finite → b.Finite →
        (0 ≤ a.distance w b ↔ a.FinitelyApart w b)
        ∧ (a.SoundsLike b → Scalar.same (a.distance w b) 0 = true) := by
  refine ⟨measuresAlike, fun R => measuresAlike, ?_⟩
  intro w a b hw ha hb
  refine ⟨zero_le_distance_iff hw ha hb, ?_⟩
  intro h
  exact (same_iff_of_value (value?_distance_of_soundsLike hw hb h) value?_zero).mpr rfl

/-- A beat with one entry in each vector. -/
def note : Beat Float := ⟨0, 0, 1, [1], [1], 0, 0, 1, #[]⟩

/-- A beat with the same features, and with one more entry in its timbre, a zero. -/
def longNote : Beat Float := ⟨1, 1, 1, [1, -0], [1], 0, 0, 1, #[]⟩

/-- The two notes sound alike and are at a distance of zero. -/
theorem distance_symmetric_padded_notes : MeasuresAlike Exact
    ∧ Weights.standard.Proper ∧ note.Finite ∧ longNote.Finite ∧ note.SoundsLike longNote
    ∧ 0 ≤ note.distance .standard longNote
    ∧ Scalar.same (note.distance .standard longNote) 0 = true := by
  have hweights : (Weights.standard : Weights Float).Proper := by
    constructor <;> decide +kernel
  have hnote : note.Finite := by constructor <;> decide +kernel
  have hlong : longNote.Finite := by constructor <;> decide +kernel
  have hzero : Zeros [(-0 : Float)] := List.forall_mem_singleton.mpr (by decide +kernel)
  have halike : note.SoundsLike longNote :=
    { timbre := ⟨[-0], [], hzero, nofun, .cons (by decide +kernel) (.cons (by decide +kernel) .nil)⟩
      pitch := ⟨[], [], nofun, nofun, .cons (by decide +kernel) .nil⟩
      loudnessStart := by decide +kernel
      loudnessMax := by decide +kernel
      duration := by decide +kernel
      confidence := by decide +kernel }
  have hapart : note.FinitelyApart .standard longNote := by
    constructor <;> exact fun _ => by decide +kernel
  obtain ⟨hiff, hsame⟩ := distance_symmetric_padded.2.2 .standard note longNote hweights hnote hlong
  exact ⟨distance_symmetric_padded.2.1 Exact, hweights, hnote, hlong, halike, hiff.mpr hapart,
    hsame halike⟩

end EndlessRemix
