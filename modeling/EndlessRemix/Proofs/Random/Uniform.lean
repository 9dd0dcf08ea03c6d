import EndlessRemix.Proofs.Number.Monotone
import EndlessRemix.Proofs.Number.Reals
import EndlessRemix.Proofs.Random
import EndlessRemix.Walk.Path

/-!
# Positions picked by draws of the generator

A draw of the generator is a fraction of `2 ^ 32`. Times the length of a list that is not too long
it is a double, so nothing is rounded, and the whole part of the product is picked. The draws that
pick one position lie between two multiples of the draws per position, so the numbers of draws that
pick two positions differ by one at most.
-/

namespace EndlessRemix

open Double

/-! ## Scaled numbers -/

section

variable {base length position : ℕ}

lemma lt_ceilDiv_iff (hlength : 0 < length) {x k : ℕ} : k < x ⌈/⌉ length ↔ k * length < x := by
  rw [← not_le, ceilDiv_le_iff_le_mul hlength, not_le, Nat.mul_comm]

lemma mul_ceilDiv_lt (hlength : 0 < length) (x : ℕ) : length * (x ⌈/⌉ length) < x + length := by
  rw [Nat.ceilDiv_eq_add_pred_div]
  have hle := Nat.mul_div_le (x + length - 1) length
  omega

/-- The numbers that are scaled to a position lie between two bounds. -/
lemma scaled_eq_iff (hbase : 0 < base) (hlength : 0 < length) {k : ℕ} :
    k * length / base = position ↔ position * base ⌈/⌉ length ≤ k
      ∧ k < (position + 1) * base ⌈/⌉ length := by
  rw [Nat.div_eq_iff hbase, ceilDiv_le_iff_le_mul hlength, lt_ceilDiv_iff hlength, Nat.succ_mul,
    Nat.mul_comm length]
  omega

/-- As many numbers are scaled to a position as lie between its bounds. -/
lemma card_scaled (hbase : 0 < base) (hlength : 0 < length) (hposition : position < length) :
    ((Finset.range base).filter fun k => k * length / base = position).card
      = (position + 1) * base ⌈/⌉ length - position * base ⌈/⌉ length := by
  have htop : (position + 1) * base ⌈/⌉ length ≤ base := by
    rw [ceilDiv_le_iff_le_mul hlength]
    exact Nat.mul_le_mul_right base hposition
  rw [← Nat.card_Ico]
  congr 1
  ext k
  rw [Finset.mem_filter, Finset.mem_range, Finset.mem_Ico, scaled_eq_iff hbase hlength]
  omega

/-- The gap between two neighboring bounds is a share of the numbers, rounded down or up. -/
lemma ceilDiv_gap (hlength : 0 < length) (position : ℕ) :
    base / length ≤ (position + 1) * base ⌈/⌉ length - position * base ⌈/⌉ length
      ∧ (position + 1) * base ⌈/⌉ length - position * base ⌈/⌉ length ≤ base ⌈/⌉ length := by
  have hlow : position * base ≤ length * (position * base ⌈/⌉ length) := le_smul_ceilDiv hlength
  have hlow' := mul_ceilDiv_lt hlength (position * base)
  have hhigh : (position + 1) * base ≤ length * ((position + 1) * base ⌈/⌉ length) :=
    le_smul_ceilDiv hlength
  have hshare : length * (base / length) ≤ base := Nat.mul_div_le base length
  have hshare' : base ≤ length * (base ⌈/⌉ length) := le_smul_ceilDiv hlength
  rw [Nat.succ_mul] at hhigh ⊢
  constructor
  · have hlt : length * (position * base ⌈/⌉ length + base / length)
        < length * ((position * base + base) ⌈/⌉ length + 1) := by
      rw [Nat.mul_add, Nat.mul_succ]
      omega
    have := Nat.lt_of_mul_lt_mul_left hlt
    omega
  · have hle : (position * base + base) ⌈/⌉ length
        ≤ position * base ⌈/⌉ length + base ⌈/⌉ length := by
      rw [ceilDiv_le_iff_le_mul hlength, Nat.mul_add]
      omega
    omega

lemma ceilDiv_le_succ (hlength : 0 < length) (base : ℕ) :
    base ⌈/⌉ length ≤ base / length + 1 := by
  rw [ceilDiv_le_iff_le_mul hlength]
  exact (Nat.lt_mul_div_succ base hlength).le

end

/-! ## Draws of the generator -/

section

variable {draw : Float} {k length : ℕ}

/-- The product of a draw of the generator and a length is exact. -/
lemma value?_draw_mul (hdraw : value? draw = some (k / 2 ^ 32 : ℚ)) (hk : k < 2 ^ 32)
    (hlength : length ≤ 2 ^ 21) :
    value? (draw * Scalar.ofNat length) = some ((k * length : ℕ) / 2 ^ 32 : ℚ) := by
  have hproduct := RoundedFrom.mul hdraw (by positivity) (value?_ofNat (by omega : length < 2 ^ 53))
    (by positivity)
  have hq : (k / 2 ^ 32 : ℚ) * length = (k * length : ℕ) / 2 ^ 32 := by
    push_cast
    ring
  rw [hq] at hproduct
  rcases Nat.eq_zero_or_pos (k * length) with hzero | hpos
  · rw [hzero, Nat.cast_zero, zero_div] at hproduct ⊢
    exact hproduct.eq_zero
  · have hlt : k * length < 2 ^ 53 := by
      calc k * length ≤ k * 2 ^ 21 := Nat.mul_le_mul_left k hlength
        _ < 2 ^ 32 * 2 ^ 21 := Nat.mul_lt_mul_of_pos_right hk (by norm_num)
        _ = 2 ^ 53 := by norm_num
    -- the product has at most 53 digits, and its last one is far above the least place
    obtain ⟨m, f, hm, hcanonical, hparts⟩ :=
      exists_canonical_nat hpos hlt (e := -32) (by norm_num) (by norm_num) .positive
    refine hproduct.eq_of_canonical hcanonical ?_
    rw [← hparts]
    norm_num
    ring

/-- A draw of the generator picks the whole part of its product with the length. -/
theorem whole_pickIndex_draw (hdraw : value? draw = some (k / 2 ^ 32 : ℚ)) (hk : k < 2 ^ 32)
    (hpos : 0 < length) (hlength : length ≤ 2 ^ 21) :
    Scalar.whole (pickIndex draw (Scalar.ofNat length)) = .int (k * length / 2 ^ 32 : ℕ)
      ∧ k * length / 2 ^ 32 < length := by
  have hlt : k * length / 2 ^ 32 < length := by
    rw [Nat.div_lt_iff_lt_mul (by norm_num), Nat.mul_comm]
    exact Nat.mul_lt_mul_of_pos_left hk hpos
  have hfloor : ⌊((k * length : ℕ) / 2 ^ 32 : ℚ)⌋₊ = k * length / 2 ^ 32 := by
    have hbase : (2 ^ 32 : ℚ) = (2 ^ 32 : ℕ) := by norm_num
    rw [hbase, Nat.floor_div_eq_div]
  have hvalue := value?_pickIndex (value?_draw_mul hdraw hk hlength) (by positivity) hpos (by omega)
  rw [hfloor, min_eq_left (by omega)] at hvalue
  refine ⟨whole_of_value ?_, hlt⟩
  rw [hvalue, Int.cast_natCast]

end

/-- How many of the generator's draws pick a position of a list. -/
def pickCount (length position : ℕ) : ℕ :=
  ((Finset.range (2 ^ 32)).filter fun k =>
    Scalar.whole (pickIndex (unitOf (UInt32.ofNat k) : Float) (Scalar.ofNat length))
      = .int position).card

/-- A position is picked by as many draws as are scaled to it. -/
lemma pickCount_eq {length position : ℕ} (hpos : 0 < length) (hlength : length ≤ 2 ^ 21)
    (hposition : position < length) :
    pickCount length position
      = (position + 1) * 2 ^ 32 ⌈/⌉ length - position * 2 ^ 32 ⌈/⌉ length := by
  have hscaled : ∀ k ∈ Finset.range (2 ^ 32),
      Scalar.whole (pickIndex (unitOf (UInt32.ofNat k) : Float) (Scalar.ofNat length))
        = .int position ↔ k * length / 2 ^ 32 = position := by
    intro k hmem
    have hk : k < 2 ^ 32 := Finset.mem_range.mp hmem
    have hdraw : value? (unitOf (UInt32.ofNat k) : Float) = some (k / 2 ^ 32 : ℚ) := by
      rw [value?_unitOf, UInt32.toNat_ofNat', Nat.mod_eq_of_lt hk]
    rw [(whole_pickIndex_draw hdraw hk hpos hlength).1, Whole.int.injEq, Int.natCast_inj]
  rw [pickCount, Finset.filter_congr hscaled, card_scaled (by norm_num) hpos hposition]

/-- Without rounding, a draw in `[0, 1)` picks the whole part of its product with the length. -/
lemma whole_pickIndex_exact {draw : Exact} {length : ℕ} (h0 : 0 ≤ draw.real) (h1 : draw.real < 1)
    (hpos : 0 < length) :
    Scalar.whole (pickIndex draw (Scalar.ofNat length)) = .int (⌊draw.real * length⌋₊ : ℕ)
      ∧ ⌊draw.real * length⌋₊ < length := by
  have hlength : (0 : ℝ) < length := by exact_mod_cast hpos
  have hlt : ⌊draw.real * length⌋₊ < length := by
    rw [Nat.floor_lt (by positivity)]
    calc draw.real * length < 1 * length := mul_lt_mul_of_pos_right h1 hlength
      _ = length := one_mul _
  refine ⟨?_, hlt⟩
  have hlast : ((⌊draw.real * length⌋ : ℤ) : ℝ) ≤ length - ((1 : ℕ) : ℝ) := by
    rw [← natCast_floor_eq_intCast_floor (by positivity), le_sub_iff_add_le]
    exact_mod_cast hlt
  have hpick : (pickIndex draw (Scalar.ofNat length)).real = ⌊draw.real * length⌋ :=
    min_eq_left hlast
  show Whole.int (Exact.truncate _) = _
  rw [Exact.truncate, hpick, if_pos, Int.floor_intCast, Int.natCast_floor_eq_floor (by positivity)]
  exact_mod_cast Int.floor_nonneg.mpr (by positivity)

/-- A draw of the generator chooses the neighbor at the position that it picks. -/
lemma chooseNeighbor?_draw {draw : Float} {k : ℕ} {neighbors : Array (Neighbor Float)}
    (hdraw : value? draw = some (k / 2 ^ 32 : ℚ)) (hk : k < 2 ^ 32) (hpos : 0 < neighbors.size)
    (hsize : neighbors.size ≤ 2 ^ 21) :
    chooseNeighbor? neighbors draw = neighbors[k * neighbors.size / 2 ^ 32]? := by
  rw [chooseNeighbor?, (whole_pickIndex_draw hdraw hk hpos hsize).1]

/-- Neighbors are chosen uniformly by position. In a list of at most `2 ^ 21` entries a draw
`k / 2 ^ 32` of the generator picks position `k * length / 2 ^ 32`, rounded down. Of all its draws
each position is picked by an equal share, rounded down or up, so no position is picked by more than
one draw more than another. Any other draw in `[0, 1)` also picks a position of the list, whatever
its product with the length is rounded to, and without rounding it is the whole part of the product.
-/
theorem pickIndex_uniform {length : ℕ} (hpos : 1 ≤ length) (hlength : length ≤ 2 ^ 21) :
    (∀ (k : ℕ) (draw : Float), k < 2 ^ 32 → value? draw = some (k / 2 ^ 32 : ℚ) →
      Scalar.whole (pickIndex draw (Scalar.ofNat length)) = .int (k * length / 2 ^ 32 : ℕ)
        ∧ k * length / 2 ^ 32 < length
        ∧ ∀ neighbors : Array (Neighbor Float), neighbors.size = length →
            chooseNeighbor? neighbors draw = neighbors[k * length / 2 ^ 32]?)
    ∧ (∀ position < length, pickCount length position = 2 ^ 32 / length
        ∨ pickCount length position = 2 ^ 32 ⌈/⌉ length)
    ∧ (∀ p < length, ∀ q < length, pickCount length p ≤ pickCount length q + 1)
    ∧ (∀ draw : Float, 0 ≤ draw → draw < 1 → ∃ position < length,
        Scalar.whole (pickIndex draw (Scalar.ofNat length)) = .int (position : ℕ))
    ∧ ∀ draw : Exact, 0 ≤ draw.real → draw.real < 1 →
        Scalar.whole (pickIndex draw (Scalar.ofNat length)) = .int (⌊draw.real * length⌋₊ : ℕ)
          ∧ ⌊draw.real * length⌋₊ < length := by
  have hshare : ∀ position < length, 2 ^ 32 / length ≤ pickCount length position
      ∧ pickCount length position ≤ 2 ^ 32 ⌈/⌉ length := by
    intro position hposition
    rw [pickCount_eq hpos hlength hposition]
    exact ceilDiv_gap hpos position
  have hup := ceilDiv_le_succ hpos (2 ^ 32)
  refine ⟨?_, ?_, ?_, ?_, ?_⟩
  · intro k draw hk hdraw
    obtain ⟨hpick, hlt⟩ := whole_pickIndex_draw hdraw hk hpos hlength
    refine ⟨hpick, hlt, ?_⟩
    rintro neighbors rfl
    exact chooseNeighbor?_draw hdraw hk hpos hlength
  · intro position hposition
    obtain ⟨hlow, hhigh⟩ := hshare position hposition
    omega
  · intro p hp q hq
    have hp := (hshare p hp).2
    have hq := (hshare q hq).1
    omega
  · intro draw h0 h1
    exact whole_pickIndex h0 h1 hpos (by omega)
  · intro draw h0 h1
    exact whole_pickIndex_exact h0 h1 hpos

/-- Of three positions the draw one half picks the second, and the last is not picked less often
than its share. -/
theorem pickIndex_uniform_three :
    Scalar.whole (pickIndex (unitOf 2147483648 : Float) (Scalar.ofNat 3)) = .int 1
      ∧ (pickCount 3 2 = 1431655765 ∨ pickCount 3 2 = 1431655766) := by
  obtain ⟨hpick, hshare, -⟩ := @pickIndex_uniform 3 (by norm_num) (by norm_num)
  have hdraw : value? (unitOf 2147483648 : Float) = some ((2147483648 : ℕ) / 2 ^ 32 : ℚ) :=
    value?_unitOf 2147483648
  exact ⟨(hpick 2147483648 _ (by norm_num) hdraw).1, hshare 2 (by norm_num)⟩

end EndlessRemix
