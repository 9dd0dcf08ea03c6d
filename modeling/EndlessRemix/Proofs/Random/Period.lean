import EndlessRemix.Proofs.Random
import EndlessRemix.Proofs.Walk.Trail

/-!
# The period of the seeded generator

After `k` steps a state has moved on by the sum of the first `k` powers of the multiplier, times a
number that is odd. The multiplier is one more than a multiple of four, so such a sum has as many
factors of two as `k` itself. So a state comes back after `2 ^ 32` steps and not before, and on the
way the generator is in every state once.
-/

namespace EndlessRemix

open Function Double

/-! ## Steps -/

lemma toNat_nextState (s : UInt32) :
    (nextState s).toNat = (1664525 * s.toNat + 1013904223) % 2 ^ 32 := by
  rw [nextState, UInt32.toNat_add, UInt32.toNat_mul, Nat.mul_comm]
  simp

/-- The sum of the first powers of the multiplier. -/
def multiplierSum (k : ℕ) : ℤ := ∑ i ∈ Finset.range k, 1664525 ^ i

/-- How far a number of steps takes a state. -/
theorem toNat_iterate_nextState (k : ℕ) (s : UInt32) :
    ((nextState^[k] s).toNat : ℤ)
      ≡ s.toNat + multiplierSum k * (1664524 * s.toNat + 1013904223) [ZMOD 2 ^ 32] := by
  induction k with
  | zero => simp [multiplierSum]
  | succ k ih =>
    have hsum : multiplierSum (k + 1) = 1664525 * multiplierSum k + 1 := geom_sum_succ
    rw [iterate_succ_apply', toNat_nextState]
    push_cast
    calc (1664525 * ((nextState^[k] s).toNat : ℤ) + 1013904223) % 2 ^ 32
        ≡ 1664525 * (nextState^[k] s).toNat + 1013904223 [ZMOD 2 ^ 32] := Int.mod_modEq _ _
      _ ≡ 1664525 * (s.toNat + multiplierSum k * (1664524 * s.toNat + 1013904223)) + 1013904223
          [ZMOD 2 ^ 32] := (ih.mul_left 1664525).add_right 1013904223
      _ = s.toNat + multiplierSum (k + 1) * (1664524 * s.toNat + 1013904223) := by
        rw [hsum]
        ring

/-- The sum of the first `k` powers of the multiplier has as many factors of two as `k`. -/
theorem two_pow_dvd_multiplierSum {n k : ℕ} : (2 : ℤ) ^ n ∣ multiplierSum k ↔ 2 ^ n ∣ k := by
  have hsum : multiplierSum k * (1664525 - 1) = 1664525 ^ k - 1 ^ k := by
    rw [one_pow]
    exact geom_sum_mul 1664525 k
  have hlift := Int.two_pow_sub_pow' (x := 1664525) (y := 1) k (by decide) (by decide)
  rw [← hsum, emultiplicity_mul Int.prime_two, add_comm] at hlift
  -- the factors of two of the multiplier less one are on both sides
  have hfinite : emultiplicity (2 : ℤ) (1664525 - 1) ≠ ⊤ :=
    finiteMultiplicity_iff_emultiplicity_ne_top.mp
      (Int.finiteMultiplicity_iff.mpr ⟨by decide, by decide⟩)
  have heq : emultiplicity 2 (multiplierSum k) = emultiplicity (2 : ℤ) k :=
    WithTop.add_left_cancel hfinite hlift
  rw [pow_dvd_iff_le_emultiplicity, heq, ← pow_dvd_iff_le_emultiplicity]
  exact_mod_cast Int.natCast_dvd_natCast

/-- A state comes back after the multiples of `2 ^ 32` steps. -/
theorem isPeriodicPt_nextState {k : ℕ} {s : UInt32} :
    IsPeriodicPt nextState k s ↔ 2 ^ 32 ∣ k := by
  have hodd : IsCoprime ((2 : ℤ) ^ 32) (1664524 * s.toNat + 1013904223) := by
    apply IsCoprime.pow_left
    exact ⟨-(832262 * s.toNat + 506952111), 1, by ring⟩
  have hmoved := toNat_iterate_nextState k s
  have hback : nextState^[k] s = s
      ↔ ((nextState^[k] s).toNat : ℤ) ≡ s.toNat [ZMOD 2 ^ 32] := by
    rw [← UInt32.toNat_inj, Int.ModEq, Int.emod_eq_of_lt (by positivity),
      Int.emod_eq_of_lt (by positivity), Int.natCast_inj]
    · exact_mod_cast s.toNat_lt
    · exact_mod_cast (nextState^[k] s).toNat_lt
  have hdisplaced : ((nextState^[k] s).toNat : ℤ) ≡ s.toNat [ZMOD 2 ^ 32]
      ↔ (2 : ℤ) ^ 32 ∣ multiplierSum k * (1664524 * s.toNat + 1013904223) := by
    constructor
    · intro h
      have hsum := Int.modEq_iff_dvd.mp (h.symm.trans hmoved)
      rwa [add_sub_cancel_left] at hsum
    · intro h
      refine hmoved.trans (Int.modEq_iff_dvd.mpr ?_)
      rw [sub_add_cancel_left]
      exact (dvd_neg).mpr h
  show nextState^[k] s = s ↔ _
  rw [hback, hdisplaced, ← two_pow_dvd_multiplierSum]
  exact ⟨hodd.dvd_of_dvd_mul_right, fun h => h.mul_right _⟩

/-- Two numbers of steps lead to the same state if they are equal modulo `2 ^ 32`. -/
theorem iterate_nextState_eq_iff {i j : ℕ} {s : UInt32} :
    nextState^[i] s = nextState^[j] s ↔ i ≡ j [MOD 2 ^ 32] := by
  wlog hle : i ≤ j generalizing i j
  · rw [eq_comm, Nat.ModEq.comm]
    exact this (not_le.mp hle).le
  obtain ⟨d, rfl⟩ := Nat.exists_eq_add_of_le hle
  have hperiod := isPeriodicPt_nextState (k := d) (s := nextState^[i] s)
  rw [Nat.modEq_iff_dvd' hle, Nat.add_sub_cancel_left, ← hperiod, Nat.add_comm, iterate_add_apply]
  exact eq_comm

/-- In a row of `2 ^ 32` states, each state comes once. -/
theorem existsUnique_iterate_nextState (s w : UInt32) (i : ℕ) :
    ∃! j, i ≤ j ∧ j < i + 2 ^ 32 ∧ nextState^[j] s = w := by
  -- states are as many as the places in the row
  let place : Fin (2 ^ 32) → Fin (2 ^ 32) :=
    fun d => ⟨(nextState^[i + d] s).toNat, (nextState^[i + d] s).toNat_lt⟩
  have hinjective : Injective place := by
    intro d d' h
    have hstates := UInt32.toNat_inj.mp (Fin.mk.inj h)
    have hmod := Nat.ModEq.add_left_cancel' i (iterate_nextState_eq_iff.mp hstates)
    exact Fin.ext (hmod.eq_of_lt_of_lt d.isLt d'.isLt)
  obtain ⟨d, hd⟩ := Finite.injective_iff_surjective.mp hinjective ⟨w.toNat, w.toNat_lt⟩
  have hstate : nextState^[i + d] s = w := UInt32.toNat_inj.mp (Fin.mk.inj hd)
  refine ⟨i + d, ⟨Nat.le_add_right _ _, by omega, hstate⟩, ?_⟩
  rintro j ⟨hle, hlt, hj⟩
  have hmod := iterate_nextState_eq_iff.mp (hj.trans hstate.symm)
  obtain ⟨d', rfl⟩ := Nat.exists_eq_add_of_le hle
  have hmod := Nat.ModEq.add_left_cancel' i hmod
  rw [hmod.eq_of_lt_of_lt (by omega) d.isLt]

/-- A state has one state before it. -/
lemma nextState_injective : Injective nextState := by
  intro s t h
  have hstep := congrArg UInt32.toNat h
  rw [toNat_nextState, toNat_nextState] at hstep
  have hmul : 1664525 * s.toNat ≡ 1664525 * t.toNat [MOD 2 ^ 32] :=
    Nat.ModEq.add_right_cancel' 1013904223 hstep
  have hmod := Nat.ModEq.cancel_left_of_coprime (by decide) hmul
  exact UInt32.toNat_inj.mp (hmod.eq_of_lt_of_lt s.toNat_lt t.toNat_lt)

/-! ## Signed products -/

/-- The product of a state and the multiplier, read as a signed number of 32 bits. -/
def signedProduct (state : UInt32) : ℤ := (1664525 * state.toNat : ℤ).bmod (2 ^ 32)

/-- A step on numbers: the increment is added to the signed product, and the sum is read as an
unsigned number of 32 bits. -/
def signedStep (state : UInt32) : UInt32 :=
  ((Scalar.whole ((Scalar.ofWhole (.int (signedProduct state)) : Float)
    + Scalar.ofNat 1013904223)).toWord 32).toUInt32

/-- An integer of less than 53 bits is a double. -/
lemma value?_ofWhole {k : ℤ} (hk : k.natAbs < 2 ^ 53) :
    value? (Scalar.ofWhole (.int k)) = some (k : ℚ) := by
  have hnat := value?_ofNat hk
  rcases Int.natAbs_eq k with hpos | hneg
  · rw [← Int.cast_natCast, ← hpos] at hnat
    exact value?_ofDatum_int hnat
  · have hvalue := value?_neg hnat
    rw [← Int.cast_natCast, ← Int.cast_neg, ← hneg] at hvalue
    exact value?_ofDatum_int hvalue

/-- The sign of the product makes no difference to the next state. -/
theorem signedStep_eq (state : UInt32) : signedStep state = nextState state := by
  have hlow : -2147483648 ≤ signedProduct state := Int.le_bmod (by norm_num)
  have hhigh : signedProduct state < 2147483648 := Int.bmod_lt (by norm_num)
  -- product and increment have less than 53 bits, so the sum is exact
  have hsum : value? ((Scalar.ofWhole (.int (signedProduct state)) : Float)
      + Scalar.ofNat 1013904223) = some ((signedProduct state + 1013904223 : ℤ) : ℚ) := by
    refine value?_add_int (value?_ofWhole (by omega)) (value?_ofNat (by norm_num)) (by omega) ?_
    push_cast
    rfl
  have hmod : (signedProduct state + 1013904223) % 2 ^ 32
      = ((1664525 * state.toNat + 1013904223 : ℕ) % 2 ^ 32 : ℕ) := by
    have hproduct : signedProduct state % 2 ^ 32 = 1664525 * state.toNat % 2 ^ 32 := Int.bmod_emod
    rw [Int.add_emod, hproduct, ← Int.add_emod]
    push_cast
    rfl
  rw [signedStep, whole_of_value hsum, Whole.toWord, Nat.pow_eq]
  apply UInt32.toNat_inj.mp
  rw [Nat.cast_pow, Nat.cast_ofNat, hmod, Int.toNat_natCast, toNat_nextState]
  exact (UInt32.toNat_ofNat').trans (Nat.mod_mod _ _)

/-! ## Seeds -/

/-- The state that an integer seed starts from. -/
lemma toNat_seedState (z : ℤ) :
    ((seedState (.int z)).toNat : ℤ) = if z % 2 ^ 32 = 0 then 1 else z % 2 ^ 32 := by
  have hnonneg : 0 ≤ z % 2 ^ 32 := Int.emod_nonneg z (by norm_num)
  have hlt : z % 2 ^ 32 < 2 ^ 32 := Int.emod_lt_of_pos z (by norm_num)
  have hword : (((Whole.int z).toWord 32).toUInt32.toNat : ℤ) = z % 2 ^ 32 := by
    have hnat : ((Whole.int z).toWord 32).toUInt32.toNat = (z % 2 ^ 32).toNat % 2 ^ 32 :=
      UInt32.toNat_ofNat'
    rw [hnat]
    omega
  have hzero : ((Whole.int z).toWord 32).toUInt32 = 0 ↔ z % 2 ^ 32 = 0 := by
    rw [← hword, ← UInt32.toNat_inj]
    exact (Int.natCast_eq_zero).symm
  unfold seedState
  dsimp only
  split_ifs with h h' h'
  · rfl
  · exact absurd (hzero.mp h) h'
  · exact absurd (hzero.mpr h') h
  · exact hword

/-- Two integer seeds start from one state if they are equal modulo `2 ^ 32`, or are 0 and 1. -/
lemma seedState_eq_iff {y z : ℤ} :
    seedState (.int y) = seedState (.int z) ↔ y ≡ z [ZMOD 2 ^ 32]
      ∨ y ≡ 0 [ZMOD 2 ^ 32] ∧ z ≡ 1 [ZMOD 2 ^ 32] ∨ y ≡ 1 [ZMOD 2 ^ 32] ∧ z ≡ 0 [ZMOD 2 ^ 32] := by
  rw [← UInt32.toNat_inj, ← Int.natCast_inj, toNat_seedState, toNat_seedState]
  unfold Int.ModEq
  split_ifs <;> omega

/-! ## Draws -/

section

variable {R : Type} [Scalar R]

lemma after_seeded (k : ℕ) (s : UInt32) :
    (Draws.seeded : Draws R UInt32).after k s = nextState^[k] s := by
  induction k with
  | zero => rfl
  | succ k ih =>
    rw [iterate_succ_apply', ← ih]
    rfl

lemma value_seeded (k : ℕ) (s : UInt32) :
    (Draws.seeded : Draws R UInt32).value k s = unitOf (nextState^[k + 1] s) := by
  rw [iterate_succ_apply', ← after_seeded (R := R)]
  rfl

end

/-- Draws that repeat after `2 ^ 32` of them and not before, and among so many in a row come to
every fraction of `2 ^ 32` in `[0, 1)` once. -/
structure FullPeriod (output : ℕ → Float) : Prop where
  unit : ∀ k, ∃ m < 2 ^ 32, value? (output k) = some ((m : ℕ) / 2 ^ 32 : ℚ)
  distinct : ∀ i j, value? (output i) = value? (output j) ↔ i ≡ j [MOD 2 ^ 32]
  once : ∀ i, ∀ m < 2 ^ 32, ∃! j, i ≤ j ∧ j < i + 2 ^ 32
    ∧ value? (output j) = some ((m : ℕ) / 2 ^ 32 : ℚ)
  period : ∀ p, (∀ k, output (k + p) = output k) ↔ 2 ^ 32 ∣ p

/-- Two states have the same value only if they are the same. -/
lemma value?_unitOf_inj {s t : UInt32} :
    value? (unitOf s : Float) = value? (unitOf t) ↔ s = t := by
  rw [value?_unitOf, value?_unitOf, Option.some_inj, div_left_inj' (by norm_num), Nat.cast_inj,
    UInt32.toNat_inj]

/-- From every state the generator has full period. -/
theorem fullPeriod_seeded (s : UInt32) :
    FullPeriod fun k => (Draws.seeded : Draws Float UInt32).value k s := by
  have hdistinct : ∀ i j, value? ((Draws.seeded : Draws Float UInt32).value i s)
      = value? ((Draws.seeded : Draws Float UInt32).value j s) ↔ i ≡ j [MOD 2 ^ 32] := by
    intro i j
    rw [value_seeded, value_seeded, value?_unitOf_inj, iterate_nextState_eq_iff]
    exact ⟨fun h => h.add_right_cancel' 1, fun h => h.add_right 1⟩
  constructor
  · intro k
    rw [value_seeded]
    exact ⟨_, UInt32.toNat_lt _, value?_unitOf _⟩
  · exact hdistinct
  · intro i m hm
    have hvalue : ∀ j, value? ((Draws.seeded : Draws Float UInt32).value j s)
        = some ((m : ℕ) / 2 ^ 32 : ℚ) ↔ nextState^[j] (nextState s) = UInt32.ofNat m := by
      intro j
      have hword : (UInt32.ofNat m).toNat = m := by
        rw [UInt32.toNat_ofNat', Nat.mod_eq_of_lt hm]
      rw [value_seeded, iterate_succ_apply, ← value?_unitOf_inj, value?_unitOf (UInt32.ofNat m),
        hword]
    simp only [hvalue]
    exact existsUnique_iterate_nextState (nextState s) (UInt32.ofNat m) i
  · intro p
    constructor
    · intro h
      have hzero := (hdistinct (0 + p) 0).mp (congrArg value? (h 0))
      rw [Nat.zero_add] at hzero
      exact Nat.modEq_zero_iff_dvd.mp hzero
    · intro h k
      have hback : k + p ≡ k [MOD 2 ^ 32] := by
        simpa using (Nat.modEq_zero_iff_dvd.mpr h).add_left k
      show (Draws.seeded : Draws Float UInt32).value (k + p) s = Draws.seeded.value k s
      rw [value_seeded, value_seeded, iterate_nextState_eq_iff.mpr (hback.add_right 1)]

/-- The seeded generator. From an integer seed it starts in the state of the seed modulo `2 ^ 32`,
with 0 replaced by 1. Each state is computed from the one before with a signed product, to the same
effect as without a sign, and each draw is exactly its state as a fraction of `2 ^ 32`. The draws
have full period, and two seeds draw the same values only if they start from the same state. -/
theorem seeded_full_period {seed : Float} {z : ℤ} (hseed : value? seed = some (z : ℚ)) :
    let start := seedState (Scalar.whole seed)
    let state := fun k => (Draws.seeded : Draws Float UInt32).after k start
    let output := fun k => (Draws.seeded : Draws Float UInt32).value k start
    ((state 0).toNat : ℤ) = (if z % 2 ^ 32 = 0 then 1 else z % 2 ^ 32)
    ∧ (∀ k, (state (k + 1)).toNat = (1664525 * (state k).toNat + 1013904223) % 2 ^ 32
      ∧ state (k + 1) = signedStep (state k))
    ∧ (∀ k, value? (output k) = some ((state (k + 1)).toNat / 2 ^ 32 : ℚ)
      ∧ 0 ≤ output k ∧ output k < 1)
    ∧ FullPeriod output
    ∧ ∀ {other : Float} {y : ℤ}, value? other = some (y : ℚ) →
        ((∀ k, (Draws.seeded : Draws Float UInt32).value k (seedState (Scalar.whole other))
            = output k)
          ↔ y ≡ z [ZMOD 2 ^ 32] ∨ y ≡ 0 [ZMOD 2 ^ 32] ∧ z ≡ 1 [ZMOD 2 ^ 32]
            ∨ y ≡ 1 [ZMOD 2 ^ 32] ∧ z ≡ 0 [ZMOD 2 ^ 32]) := by
  intro start state output
  refine ⟨?_, ?_, ?_, fullPeriod_seeded start, ?_⟩
  · show ((seedState (Scalar.whole seed)).toNat : ℤ) = _
    rw [whole_of_value hseed, toNat_seedState]
  · intro k
    exact ⟨toNat_nextState _, (signedStep_eq _).symm⟩
  · intro k
    exact ⟨value?_unitOf _, unitOf_bounds _⟩
  · intro other y hother
    rw [← seedState_eq_iff, ← whole_of_value hother, ← whole_of_value hseed]
    constructor
    · intro h
      -- the first draw shows the state after the first step, and a step can be taken back
      have hfirst := congrArg value? (h 0)
      exact nextState_injective (value?_unitOf_inj.mp hfirst)
    · intro h k
      rw [h]

/-- The seed `2 ^ 32 + 1` draws what the seed 0 draws, and its first draw is that of the seed 1. -/
theorem seeded_full_period_one :
    (∀ k, (Draws.seeded : Draws Float UInt32).value k (seedState (Scalar.whole (0 : Float)))
      = Draws.seeded.value k (seedState (Scalar.whole (Scalar.ofNat 4294967297 : Float))))
    ∧ value? ((Draws.seeded : Draws Float UInt32).value 0
        (seedState (Scalar.whole (Scalar.ofNat 4294967297 : Float))))
      = some (1015568748 / 2 ^ 32 : ℚ) := by
  have hseed : value? (Scalar.ofNat 4294967297) = some ((4294967297 : ℤ) : ℚ) :=
    value?_ofNat (by norm_num)
  have hzero : value? 0 = some ((0 : ℤ) : ℚ) := by
    rw [Int.cast_zero]
    exact value?_zero
  obtain ⟨hstart, hstep, hdraw, -, hsame⟩ := seeded_full_period hseed
  have hone : ((Draws.seeded : Draws Float UInt32).after 0
      (seedState (Scalar.whole (Scalar.ofNat 4294967297 : Float)))).toNat = 1 := by
    rw [if_neg (by decide)] at hstart
    exact_mod_cast hstart
  refine ⟨(hsame hzero).mpr (.inr (.inl ⟨by decide, by decide⟩)), ?_⟩
  rw [(hdraw 0).1, (hstep 0).1, hone]
  norm_num

end EndlessRemix
