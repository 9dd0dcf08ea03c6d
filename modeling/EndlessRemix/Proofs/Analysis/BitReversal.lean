import EndlessRemix.Analysis.BitReversal
import Mathlib

/-!
# The bit-reversed order is a reversal of digits

Counting along with a carry that runs down gives, at every position, the reversal of its binary
digits. So after the exchanges of all positions each value stands at the reversal of its own
position, because the pairs of positions that are each other's reversal have all been passed. Each
pair is exchanged when its lower position is passed and not again, so the order is undone by itself.
-/

namespace EndlessRemix

/-! ## Reversed digits -/

section

variable (k n : ℕ)

@[simp] lemma reverseBits_no_bits : reverseBits 0 n = 0 := rfl

lemma reverseBits_succ : reverseBits (k + 1) n = n % 2 * 2 ^ k + reverseBits k (n / 2) := rfl

lemma reverseBits_lt : reverseBits k n < 2 ^ k := by
  induction k generalizing n with
  | zero => exact one_pos
  | succ k ih =>
    have hrest := ih (n / 2)
    have hdigit : n % 2 * 2 ^ k ≤ 1 * 2 ^ k := Nat.mul_le_mul_right _ (by omega)
    rw [reverseBits_succ, pow_succ]
    omega

lemma reverseBits_two_mul : reverseBits (k + 1) (2 * n) = reverseBits k n := by
  rw [reverseBits_succ, Nat.mul_mod_right, zero_mul, zero_add, Nat.mul_div_cancel_left n two_pos]

lemma reverseBits_two_mul_add_one :
    reverseBits (k + 1) (2 * n + 1) = 2 ^ k + reverseBits k n := by
  have hdigit : (2 * n + 1) % 2 = 1 := by omega
  have hrest : (2 * n + 1) / 2 = n := by omega
  rw [reverseBits_succ, hdigit, one_mul, hrest]

@[simp] lemma reverseBits_zero : reverseBits k 0 = 0 := by
  induction k with
  | zero => rfl
  | succ k ih => rw [reverseBits_succ, Nat.zero_div, ih, Nat.zero_mod, zero_mul]

/-- The first digit of a number is the last one of its reversal. -/
lemma reverseBits_two_pow_add (digit : ℕ) (hn : n < 2 ^ k) :
    reverseBits (k + 1) (digit * 2 ^ k + n) = 2 * reverseBits k n + digit % 2 := by
  induction k generalizing n with
  | zero =>
    obtain rfl : n = 0 := by omega
    simp [reverseBits_succ]
  | succ k ih =>
    have hlast : (digit * 2 ^ (k + 1) + n) % 2 = n % 2 := by
      rw [pow_succ, ← mul_assoc]
      omega
    have hrest : (digit * 2 ^ (k + 1) + n) / 2 = digit * 2 ^ k + n / 2 := by
      rw [pow_succ, ← mul_assoc]
      omega
    have hhalf : n / 2 < 2 ^ k := by
      rw [pow_succ] at hn
      omega
    rw [reverseBits_succ, hlast, hrest, ih _ hhalf, reverseBits_succ, pow_succ]
    ring

variable {k n}

/-- A reversal is undone by another one. -/
lemma reverseBits_reverseBits (hn : n < 2 ^ k) : reverseBits k (reverseBits k n) = n := by
  induction k generalizing n with
  | zero =>
    rw [reverseBits_no_bits]
    omega
  | succ k ih =>
    have hhalf : n / 2 < 2 ^ k := by
      rw [pow_succ] at hn
      omega
    rw [reverseBits_succ k n, reverseBits_two_pow_add _ _ _ (reverseBits_lt _ _), ih hhalf]
    omega

/-- A digit of a reversal is the one that stands as far from the other end. -/
lemma testBit_reverseBits {b : ℕ} (hb : b < k) :
    (reverseBits k n).testBit b = n.testBit (k - 1 - b) := by
  induction k generalizing n b with
  | zero => omega
  | succ k ih =>
    rw [reverseBits_succ, mul_comm, Nat.testBit_two_pow_mul_add _ (reverseBits_lt k (n / 2))]
    by_cases hlow : b < k
    · have hplace : k + 1 - 1 - b = k - 1 - b + 1 := by omega
      rw [if_pos hlow, ih hlow, hplace, Nat.testBit_succ]
    · obtain rfl : b = k := by omega
      rw [if_neg hlow, Nat.sub_self, Nat.add_sub_cancel, Nat.sub_self, Nat.testBit_mod_two_pow n 1]
      simp

/-! ## Counting along -/

/-- A bit above all digits of a number is added to it. -/
lemma xor_two_pow {k r : ℕ} (hr : r < 2 ^ k) : r ^^^ 2 ^ k = 2 ^ k + r := by
  apply Nat.eq_of_testBit_eq
  intro j
  rcases lt_trichotomy j k with hj | rfl | hj
  · simp [Nat.testBit_two_pow_add_gt hj, hj.ne']
  · simp [Nat.testBit_two_pow_add_eq]
  · have hr' : r < 2 ^ j := hr.trans (Nat.pow_lt_pow_right one_lt_two hj)
    have hsum : 2 ^ k + r < 2 ^ j := by
      calc 2 ^ k + r < 2 ^ (k + 1) := by
            rw [pow_succ]
            omega
        _ ≤ 2 ^ j := Nat.pow_le_pow_right two_pos hj
    simp [Nat.testBit_lt_two_pow hr', Nat.testBit_lt_two_pow hsum, hj.ne]

/-- The carry from the first digit on gives the reversal of the next number. -/
lemma nextReversed_reverseBits (k n : ℕ) :
    nextReversed (2 ^ k) (reverseBits k n) = reverseBits k (n + 1) := by
  rw [nextReversed]
  induction k generalizing n with
  | zero => simp [addReversed]
  | succ k ih =>
    have hbit : 2 ^ (k + 1) / 2 = 2 ^ k := by
      rw [pow_succ, Nat.mul_div_cancel _ two_pos]
    rw [hbit, addReversed]
    obtain ⟨m, rfl | rfl⟩ := Nat.even_or_odd' n
    · have hlt := reverseBits_lt k m
      have hclear : reverseBits k m &&& 2 ^ k = 0 := by
        rw [Nat.and_two_pow, Nat.testBit_lt_two_pow hlt, Bool.toNat_false, zero_mul]
      rw [reverseBits_two_mul, if_pos hclear, xor_two_pow hlt, reverseBits_two_mul_add_one]
    · have hlt := reverseBits_lt k m
      have hset : ¬(2 ^ k + reverseBits k m) &&& 2 ^ k = 0 := by
        rw [Nat.and_two_pow, Nat.testBit_two_pow_add_eq, Nat.testBit_lt_two_pow hlt]
        simp
      have hnext : 2 * m + 1 + 1 = 2 * (m + 1) := by ring
      rw [reverseBits_two_mul_add_one, if_neg hset, ← xor_two_pow hlt, Nat.xor_xor_cancel_right, ih,
        hnext, reverseBits_two_mul]

end

/-! ## The carry on words -/

/-- `addReversed` on signed words of 32 bits, for as many turns as are given. -/
def addReversedWord : ℕ → Int32 → Int32 → Option Int32
  | 0, _, _ => none
  | turns + 1, bit, reversed =>
    if reversed &&& bit = 0 then some (reversed ^^^ bit)
    else addReversedWord turns (bit >>> 1) (reversed ^^^ bit)

lemma ofNat_and_ofNat (a b : ℕ) : Int32.ofNat a &&& Int32.ofNat b = Int32.ofNat (a &&& b) := by
  rw [← Int32.toBitVec_inj, Int32.toBitVec_and]
  exact BitVec.ofNat_and.symm

lemma ofNat_xor_ofNat (a b : ℕ) : Int32.ofNat a ^^^ Int32.ofNat b = Int32.ofNat (a ^^^ b) := by
  rw [← Int32.toBitVec_inj, Int32.toBitVec_xor]
  exact BitVec.ofNat_xor.symm

section

variable {n : ℕ}

lemma ofNat_eq_zero_iff (hn : n < 2 ^ 31) : Int32.ofNat n = 0 ↔ n = 0 := by
  rw [← Int32.toInt_inj, Int32.toInt_ofNat_of_lt hn, Int32.toInt_zero, Int.natCast_eq_zero]

/-- A word without a sign is halved by a shift. -/
lemma ofNat_shiftRight_one (hn : n < 2 ^ 31) : Int32.ofNat n >>> 1 = Int32.ofNat (n / 2) := by
  have hword : (Int32.ofNat n).toBitVec.toNat = n := by
    rw [Int32.toBitVec_ofNat', BitVec.toNat_ofNat, Nat.mod_eq_of_lt (by omega)]
  have hsign : (Int32.ofNat n).toBitVec.msb = false := by
    rw [BitVec.msb_eq_false_iff_two_mul_lt, hword]
    omega
  rw [← Int32.toBitVec_inj]
  show (Int32.ofNat n).toBitVec.sshiftRight 1 = (Int32.ofNat (n / 2)).toBitVec
  rw [BitVec.sshiftRight_eq_of_msb_false hsign, ← BitVec.toNat_inj, BitVec.toNat_ushiftRight, hword,
    Int32.toBitVec_ofNat', BitVec.toNat_ofNat, Nat.mod_eq_of_lt (by omega),
    Nat.shiftRight_eq_div_pow, pow_one]

end

/-- The carry ends when its bit is shifted out, and gives what it gives without bounds. -/
lemma addReversedWord_eq {turns bit reversed : ℕ} (hturns : bit < 2 ^ turns) (hbit : bit < 2 ^ 31)
    (hreversed : reversed < 2 ^ 31) :
    addReversedWord (turns + 1) (Int32.ofNat bit) (Int32.ofNat reversed)
      = some (Int32.ofNat (addReversed bit reversed)) := by
  induction turns generalizing bit reversed with
  | zero =>
    obtain rfl : bit = 0 := by omega
    rw [addReversedWord, addReversed, ofNat_and_ofNat, ofNat_xor_ofNat, Nat.and_zero]
    rfl
  | succ turns ih =>
    have hcarry := ofNat_eq_zero_iff (Nat.and_lt_two_pow reversed hbit)
    rw [addReversedWord, addReversed, ofNat_and_ofNat, ofNat_xor_ofNat, ofNat_shiftRight_one hbit]
    by_cases hclear : reversed &&& bit = 0
    · rw [if_pos hclear, if_pos (hcarry.mpr hclear)]
    · rw [if_neg hclear, if_neg (mt hcarry.mp hclear)]
      have hhalf : bit / 2 < 2 ^ turns := by
        rw [pow_succ] at hturns
        omega
      exact ih hhalf (by omega) (Nat.xor_lt_two_pow hreversed hbit)

/-! ## The exchanges -/

section

variable {α : Type} {k : ℕ} {xs : Array α}

/-- After the positions up to `m` are passed, the pairs with a position among them are exchanged. -/
structure Exchanged (k : ℕ) (xs : Array α) (m : ℕ) (state : Array α × ℕ) : Prop where
  size : state.1.size = 2 ^ k
  reversed : state.2 = reverseBits k m
  passed : ∀ p < 2 ^ k, (p ≤ m ∨ reverseBits k p ≤ m) → state.1[p]? = xs[reverseBits k p]?
  left : ∀ p < 2 ^ k, m < p → m < reverseBits k p → state.1[p]? = xs[p]?

lemma getElem?_swapIfInBounds {i j : ℕ} (hi : i < xs.size) (hj : j < xs.size) (p : ℕ) :
    (xs.swapIfInBounds i j)[p]? = if j = p then xs[i]? else if i = p then xs[j]? else xs[p]? := by
  rw [Array.swapIfInBounds_def, dif_pos hi, dif_pos hj, Array.getElem?_swap,
    Array.getElem?_eq_getElem hi, Array.getElem?_eq_getElem hj]

lemma exchanged_zero (hsize : xs.size = 2 ^ k) : Exchanged k xs 0 (xs, 0) where
  size := hsize
  reversed := (reverseBits_zero k).symm
  passed p hp h := by
    have hzero : p = 0 := by
      rcases h with h | h
      · omega
      · rw [← reverseBits_reverseBits hp, Nat.le_zero.mp h, reverseBits_zero]
    rw [hzero, reverseBits_zero]
  left _ _ _ _ := rfl

/-- Passing one more position exchanges it with its reversal, unless that was passed before. -/
lemma Exchanged.step {m : ℕ} {state : Array α × ℕ} (h : Exchanged k xs m state)
    (hm : m + 1 < 2 ^ k) : Exchanged k xs (m + 1) (exchange (2 ^ k) state (m + 1)) := by
  have hlt : reverseBits k (m + 1) < 2 ^ k := reverseBits_lt k (m + 1)
  have hback : reverseBits k (reverseBits k (m + 1)) = m + 1 := reverseBits_reverseBits hm
  -- only the two positions of the new pair are affected
  have hpair : ∀ p < 2 ^ k, reverseBits k p = m + 1 → p = reverseBits k (m + 1) := by
    intro p hp hrev
    rw [← hrev, reverseBits_reverseBits hp]
  rw [exchange, h.reversed, nextReversed_reverseBits]
  generalize hr : reverseBits k (m + 1) = r at hlt hback hpair ⊢
  by_cases hless : m + 1 < r
  · rw [if_pos hless]
    have hswap := getElem?_swapIfInBounds (h.size.symm ▸ hm) (h.size.symm ▸ hlt)
    refine ⟨by rw [Array.size_swapIfInBounds, h.size], hr.symm, ?_, ?_⟩
    · intro p hp hpassed
      rw [hswap]
      by_cases hupper : r = p
      · rw [if_pos hupper, ← hupper, hback, h.left (m + 1) hm (by omega) (by omega)]
      by_cases hlower : m + 1 = p
      · rw [if_neg hupper, if_pos hlower, ← hlower, hr, h.left r hlt (by omega) (by omega)]
      · have hother : reverseBits k p ≠ m + 1 := fun hrev => hupper (hpair p hp hrev).symm
        rw [if_neg hupper, if_neg hlower, h.passed p hp (by omega)]
    · intro p hp hp1 hp2
      have hupper : r ≠ p := by
        rintro rfl
        omega
      rw [hswap, if_neg hupper, if_neg (by omega), h.left p hp (by omega) (by omega)]
  · rw [if_neg hless]
    refine ⟨h.size, hr.symm, ?_, fun p hp hp1 hp2 => h.left p hp (by omega) (by omega)⟩
    intro p hp hpassed
    by_cases hbefore : p ≤ m ∨ reverseBits k p ≤ m
    · exact h.passed p hp hbefore
    · -- the position is its own reversal
      have hself : p = m + 1 ∧ reverseBits k p = p := by
        by_cases hp' : p = m + 1
        · subst hp'
          omega
        · have := hpair p hp (by omega)
          omega
      rw [hself.2, h.left p hp (by omega) (by omega)]

lemma exchanged_foldl (hsize : xs.size = 2 ^ k) {m : ℕ} (hm : m < 2 ^ k) :
    Exchanged k xs m ((List.range' 1 m).foldl (exchange (2 ^ k)) (xs, 0)) := by
  induction m with
  | zero => exact exchanged_zero hsize
  | succ m ih =>
    rw [List.range'_concat, List.foldl_append, one_mul, Nat.add_comm 1 m]
    exact (ih (by omega)).step hm

/-- Each value of the bit-reversed order is the one at the reversed position. -/
theorem getElem?_bitReversed (hsize : xs.size = 2 ^ k) {p : ℕ} (hp : p < 2 ^ k) :
    (bitReversed xs)[p]? = xs[reverseBits k p]? := by
  have hpos : 0 < 2 ^ k := by positivity
  have hall := exchanged_foldl hsize (Nat.sub_lt hpos one_pos)
  rw [bitReversed, hsize]
  exact hall.passed p hp (.inl (by omega))

theorem size_bitReversed (hsize : xs.size = 2 ^ k) : (bitReversed xs).size = 2 ^ k := by
  rw [bitReversed, hsize]
  exact (exchanged_foldl hsize (Nat.sub_lt (by positivity) one_pos)).size

/-- The bit-reversed order is undone by itself. -/
theorem bitReversed_bitReversed (hsize : xs.size = 2 ^ k) : bitReversed (bitReversed xs) = xs := by
  have hsize' := size_bitReversed hsize
  apply Array.ext_getElem?
  intro p
  by_cases hp : p < 2 ^ k
  · rw [getElem?_bitReversed hsize' hp, getElem?_bitReversed hsize (reverseBits_lt k p),
      reverseBits_reverseBits hp]
  · have hend : (bitReversed (bitReversed xs)).size ≤ p := by
      rw [size_bitReversed hsize']
      exact not_lt.mp hp
    rw [Array.getElem?_eq_none hend, Array.getElem?_eq_none (hsize ▸ not_lt.mp hp)]

end

/-! ## Every pair once -/

/-- The values, and the reversal of the position last passed, when position `i` is reached. -/
def reached {α : Type} (xs : Array α) (i : ℕ) : Array α × ℕ :=
  (List.range' 1 (i - 1)).foldl (exchange xs.size) (xs, 0)

/-- The pairs that are exchanged up to position `m`: the positions that are the reversal of a higher
one, each with that one. -/
def exchangedPairs (k m : ℕ) : List (ℕ × ℕ) :=
  ((List.range' 1 m).map fun i => (i, reverseBits k i)).filter fun pair => pair.1 < pair.2

section

variable {α : Type} {k : ℕ} {xs : Array α}

lemma reversed_reached (hsize : xs.size = 2 ^ k) {i : ℕ} (hi : i - 1 < 2 ^ k) :
    (reached xs i).2 = reverseBits k (i - 1) := by
  rw [reached, hsize]
  exact (exchanged_foldl hsize hi).reversed

/-- The positions are passed by exchanging these pairs, one after the other. -/
lemma foldl_exchangedPairs (hsize : xs.size = 2 ^ k) {m : ℕ} (hm : m < 2 ^ k) :
    ((List.range' 1 m).foldl (exchange (2 ^ k)) (xs, 0)).1
      = (exchangedPairs k m).foldl (fun ys pair => ys.swapIfInBounds pair.1 pair.2) xs := by
  induction m with
  | zero => rfl
  | succ m ih =>
    have hreversed := (exchanged_foldl hsize (Nat.lt_of_succ_lt hm)).reversed
    rw [List.range'_concat, List.foldl_append, one_mul, Nat.add_comm 1 m, List.foldl_cons,
      List.foldl_nil, exchange, hreversed, nextReversed_reverseBits, ih (by omega), exchangedPairs,
      exchangedPairs, List.range'_concat, one_mul, Nat.add_comm 1 m, List.map_append,
      List.filter_append, List.foldl_append]
    by_cases hless : m + 1 < reverseBits k (m + 1)
    · simp [hless]
    · simp [hless]

lemma bitReversed_eq_foldl (hsize : xs.size = 2 ^ k) :
    bitReversed xs = (exchangedPairs k (2 ^ k - 1)).foldl
      (fun ys pair => ys.swapIfInBounds pair.1 pair.2) xs := by
  rw [bitReversed, hsize]
  exact foldl_exchangedPairs hsize (Nat.sub_lt (by positivity) one_pos)

/-- A position changes places when the lower one of it and its reversal is passed. -/
lemma exchanges_iff {i p : ℕ} (hi : i < 2 ^ k) (hp : p < 2 ^ k) :
    (i = p ∨ reverseBits k i = p) ∧ i < reverseBits k i
      ↔ reverseBits k p ≠ p ∧ i = min p (reverseBits k p) := by
  have hiback := reverseBits_reverseBits hi
  have hpback := reverseBits_reverseBits hp
  constructor
  · rintro ⟨rfl | hrev, hless⟩
    · omega
    · rw [hrev] at hiback
      omega
  · rintro ⟨hself, hmin⟩
    rcases min_choice p (reverseBits k p) with hlower | hupper
    · obtain rfl : i = p := hmin.trans hlower
      omega
    · obtain rfl : i = reverseBits k p := hmin.trans hupper
      omega

/-- A position changes places once, unless it is its own reversal. -/
lemma countP_exchangedPairs {p : ℕ} (hp : p < 2 ^ k) :
    (exchangedPairs k (2 ^ k - 1)).countP (fun pair => pair.1 = p ∨ pair.2 = p)
      = if reverseBits k p = p then 0 else 1 := by
  have hpassed : (exchangedPairs k (2 ^ k - 1)).countP (fun pair => pair.1 = p ∨ pair.2 = p)
      = (List.range' 1 (2 ^ k - 1)).countP fun i =>
          reverseBits k p ≠ p ∧ i = min p (reverseBits k p) := by
    rw [exchangedPairs, List.countP_filter, List.countP_map]
    apply List.countP_congr
    intro i hi
    have hi' : i < 2 ^ k := by
      rw [List.mem_range'_1] at hi
      omega
    simpa [-ne_eq] using exchanges_iff hi' hp
  rw [hpassed]
  by_cases hself : reverseBits k p = p
  · simp [hself]
  · have hlower : min p (reverseBits k p) ∈ List.range' 1 (2 ^ k - 1) := by
      have hpos : p ≠ 0 := by
        rintro rfl
        exact hself (reverseBits_zero k)
      have hrev : reverseBits k p ≠ 0 := by
        intro hzero
        have hback := reverseBits_reverseBits hp
        rw [hzero, reverseBits_zero] at hback
        omega
      rw [List.mem_range'_1]
      omega
    have hnodup : (List.range' 1 (2 ^ k - 1)).Nodup := List.nodup_range'
    have hcount := List.count_eq_one_of_mem hnodup hlower
    rw [List.count] at hcount
    simpa [hself, beq_eq_decide] using hcount

/-- At every position its reversal is counted to, and on words of 32 bits the carry ends. A reversal
has the digits in reverse and is undone by another one. After all positions each value has come from
the reversal of its own, by exchanges in which every position that is not its own reversal changes
places once; the same exchanges bring all values back. -/
theorem bitReversed_permutes (hk : k ≤ 29) (hsize : xs.size = 2 ^ k) :
    (∀ i, 1 ≤ i → i < 2 ^ k →
      nextReversed (2 ^ k) (reached xs i).2 = reverseBits k i
        ∧ addReversedWord (k + 1) (Int32.ofNat (2 ^ k) >>> 1) (Int32.ofNat (reached xs i).2)
            = some (Int32.ofNat (reverseBits k i)))
    ∧ (∀ i < 2 ^ k, reverseBits k i < 2 ^ k ∧ reverseBits k (reverseBits k i) = i
        ∧ ∀ b < k, (reverseBits k i).testBit b = i.testBit (k - 1 - b))
    ∧ bitReversed xs = (reached xs (2 ^ k)).1
    ∧ (bitReversed xs).size = 2 ^ k
    ∧ (∀ p < 2 ^ k, (bitReversed xs)[p]? = xs[reverseBits k p]?)
    ∧ bitReversed (bitReversed xs) = xs
    ∧ bitReversed xs
        = (exchangedPairs k (2 ^ k - 1)).foldl (fun ys pair => ys.swapIfInBounds pair.1 pair.2) xs
    ∧ ∀ p < 2 ^ k, (exchangedPairs k (2 ^ k - 1)).countP (fun pair => pair.1 = p ∨ pair.2 = p)
        = if reverseBits k p = p then 0 else 1 := by
  refine ⟨?_, ?_, ?_, size_bitReversed hsize, fun p hp => getElem?_bitReversed hsize hp,
    bitReversed_bitReversed hsize, bitReversed_eq_foldl hsize, fun p hp => countP_exchangedPairs hp⟩
  · intro i hpos hi
    have hnext : nextReversed (2 ^ k) (reverseBits k (i - 1)) = reverseBits k i := by
      rw [nextReversed_reverseBits, Nat.sub_add_cancel hpos]
    have hword : 2 ^ k ≤ 2 ^ 29 := Nat.pow_le_pow_right two_pos hk
    have hlt := reverseBits_lt k (i - 1)
    rw [reversed_reached hsize (by omega)]
    refine ⟨hnext, ?_⟩
    rw [ofNat_shiftRight_one (by omega), addReversedWord_eq (by omega) (by omega) (by omega),
      ← hnext, nextReversed]
  · intro i hi
    exact ⟨reverseBits_lt k i, reverseBits_reverseBits hi, fun b hb => testBit_reverseBits hb⟩
  · rw [bitReversed, reached, hsize]

/-- Of eight values the second and the fifth change places, and the fourth and the seventh. -/
theorem bitReversed_permutes_eight :
    bitReversed #[0, 1, 2, 3, 4, 5, 6, 7] = #[0, 4, 2, 6, 1, 5, 3, 7]
      ∧ bitReversed #[0, 4, 2, 6, 1, 5, 3, 7] = #[0, 1, 2, 3, 4, 5, 6, 7] := by
  obtain ⟨-, -, -, hsize, hvalue, hback, -⟩ :=
    @bitReversed_permutes ℕ 3 #[0, 1, 2, 3, 4, 5, 6, 7] (by norm_num) rfl
  have hfirst : bitReversed #[0, 1, 2, 3, 4, 5, 6, 7] = #[0, 4, 2, 6, 1, 5, 3, 7] := by
    apply Array.ext_getElem?
    intro p
    by_cases hp : p < 8
    · rw [hvalue p hp]
      interval_cases p <;> rfl
    · rw [Array.getElem?_eq_none (hsize ▸ not_lt.mp hp), Array.getElem?_eq_none (not_lt.mp hp)]
  exact ⟨hfirst, hfirst ▸ hback⟩

end

end EndlessRemix
