import EndlessRemix.Proofs.Analysis.Beats
import EndlessRemix.Proofs.Analysis.BitReversal
import EndlessRemix.Proofs.Number.Reals

/-!
# The spectrum is the discrete Fourier transform

In exact arithmetic the stages compute what the name says. After the stages up to the length `2 ^ s`
each block of `2 ^ s` values is the transform of the samples whose positions agree in their last
digits; which digits these are is told by the number of the block in reverse. A stage joins the
transforms of the even and of the odd samples of a block, and the last one leaves a single block,
the transform of all samples.
-/

namespace EndlessRemix

/-! ## Roots of unity -/

/-- The first of the `n`th roots of unity, clockwise. -/
noncomputable def unityRoot (n : ℕ) : ℂ := Complex.exp (-(2 : ℕ) * Real.pi * Complex.I / n)

lemma unityRoot_pow (n j : ℕ) : unityRoot n ^ j = Complex.exp (-2 * Real.pi * Complex.I * j / n) := by
  rw [unityRoot, ← Complex.exp_nat_mul]
  congr 1
  push_cast
  ring

lemma unityRoot_pow_self {n : ℕ} (hn : n ≠ 0) : unityRoot n ^ n = 1 := by
  have hn' : (n : ℂ) ≠ 0 := by exact_mod_cast hn
  rw [unityRoot_pow, mul_div_cancel_right₀ _ hn', neg_mul, neg_mul, Complex.exp_neg,
    Complex.exp_two_pi_mul_I, inv_one]

lemma unityRoot_two_mul_pow_two (n : ℕ) : unityRoot (2 * n) ^ 2 = unityRoot n := by
  rw [unityRoot_pow, unityRoot]
  congr 1
  push_cast
  rw [mul_comm (2 : ℂ) n, mul_div_mul_right _ _ two_ne_zero]

lemma unityRoot_two_mul_pow_self {n : ℕ} (hn : n ≠ 0) : unityRoot (2 * n) ^ n = -1 := by
  have hn' : (n : ℂ) ≠ 0 := by exact_mod_cast hn
  have hangle : -2 * Real.pi * Complex.I * n / (2 * n : ℕ) = -(Real.pi * Complex.I) := by
    push_cast
    field_simp
  rw [unityRoot_pow, hangle, Complex.exp_neg, Complex.exp_pi_mul_I]
  norm_num

lemma unityRoot_four : unityRoot 4 = -Complex.I := by
  have hangle : -(2 : ℕ) * (Real.pi : ℂ) * Complex.I / (4 : ℕ) = -Real.pi / 2 * Complex.I := by
    push_cast
    ring
  rw [unityRoot, hangle, Complex.exp_neg_pi_div_two_mul_I]

lemma unityRoot_eight_pow_two : unityRoot 8 ^ 2 = -Complex.I :=
  (unityRoot_two_mul_pow_two 4).trans unityRoot_four

lemma unityRoot_eight_pow_four : unityRoot 8 ^ 4 = -1 := by
  rw [pow_mul (unityRoot 8) 2 2, unityRoot_eight_pow_two, neg_sq, Complex.I_sq]

/-! ## The transform of a sequence -/

/-- The discrete Fourier transform of the first `n` values. -/
noncomputable def fourier (n : ℕ) (x : ℕ → ℂ) (q : ℕ) : ℂ :=
  ∑ t ∈ Finset.range n, x t * unityRoot n ^ (q * t)

lemma sum_range_two_mul (n : ℕ) (f : ℕ → ℂ) :
    ∑ t ∈ Finset.range (2 * n), f t
      = ∑ t ∈ Finset.range n, f (2 * t) + ∑ t ∈ Finset.range n, f (2 * t + 1) := by
  induction n with
  | zero => simp
  | succ n ih =>
    rw [Nat.mul_succ, Finset.sum_range_succ, Finset.sum_range_succ, ih, Finset.sum_range_succ,
      Finset.sum_range_succ]
    ring

variable (n : ℕ) (x : ℕ → ℂ) (q : ℕ)

/-- The even and the odd values are transformed on their own. -/
lemma fourier_two_mul :
    fourier (2 * n) x q
      = fourier n (fun t => x (2 * t)) q
        + fourier n (fun t => x (2 * t + 1)) q * unityRoot (2 * n) ^ q := by
  have hsquare (t : ℕ) : unityRoot (2 * n) ^ (q * (2 * t)) = unityRoot n ^ (q * t) := by
    rw [← unityRoot_two_mul_pow_two n, ← pow_mul, mul_left_comm]
  rw [fourier, sum_range_two_mul, fourier, fourier, Finset.sum_mul]
  congr 1
  · apply Finset.sum_congr rfl
    intro t _
    rw [hsquare]
  · apply Finset.sum_congr rfl
    intro t _
    rw [mul_add, mul_one, pow_add, hsquare, mul_assoc]

variable {n}

lemma fourier_add_self (hn : n ≠ 0) : fourier n x (n + q) = fourier n x q := by
  apply Finset.sum_congr rfl
  intro t _
  rw [add_mul, pow_add, pow_mul, unityRoot_pow_self hn, one_pow, one_mul]

/-- The second half of a transform has the differences where the first has the sums. -/
lemma fourier_two_mul_add (hn : n ≠ 0) :
    fourier (2 * n) x (n + q)
      = fourier n (fun t => x (2 * t)) q
        - fourier n (fun t => x (2 * t + 1)) q * unityRoot (2 * n) ^ q := by
  rw [fourier_two_mul, fourier_add_self _ _ hn, fourier_add_self _ _ hn, pow_add,
    unityRoot_two_mul_pow_self hn]
  ring

/-! ## Phasors as complex numbers -/

namespace Phasor

/-- The complex number of a phasor. -/
def toComplex (x : Phasor Exact) : ℂ := ⟨x.re.real, x.im.real⟩

variable (x y : Phasor Exact)

@[simp] lemma toComplex_add : (x + y).toComplex = x.toComplex + y.toComplex := rfl

@[simp] lemma toComplex_sub : (x - y).toComplex = x.toComplex - y.toComplex := rfl

@[simp] lemma toComplex_mul : (x * y).toComplex = x.toComplex * y.toComplex := rfl

@[simp] lemma toComplex_one : (one : Phasor Exact).toComplex = 1 := by
  apply Complex.ext
  · exact Nat.cast_one
  · exact Nat.cast_zero

lemma toComplex_sample (value : Exact) : (⟨value, 0⟩ : Phasor Exact).toComplex = value.real := by
  apply Complex.ext
  · rfl
  · exact Nat.cast_zero

lemma magnitude_eq : x.magnitude.real = ‖x.toComplex‖ := by
  rw [Complex.norm_def, Complex.normSq_apply, ← sq, ← sq]
  rfl

lemma toComplex_stageRoot (length : ℕ) :
    (stageRoot length : Phasor Exact).toComplex = unityRoot length := by
  have hangle : -(2 : ℕ) * Real.pi * Complex.I / length
      = ((-((2 : ℕ) : ℝ) * Real.pi / length : ℝ) : ℂ) * Complex.I := by
    push_cast
    ring
  rw [unityRoot, hangle]
  apply Complex.ext
  · rw [Complex.exp_ofReal_mul_I_re]
    rfl
  · rw [Complex.exp_ofReal_mul_I_im]
    rfl

end Phasor

/-- The factors of a stage are the powers of its root. -/
lemma toComplex_valueAt_factorsFrom (root factor : Phasor Exact) {count i : ℕ} (hi : i < count) :
    (valueAt (factorsFrom root count factor).toArray i).toComplex
      = factor.toComplex * root.toComplex ^ i := by
  induction count generalizing factor i with
  | zero => omega
  | succ count ih =>
    cases i with
    | zero => simp [valueAt, factorsFrom]
    | succ i =>
      have hrest := ih (factor * root) (i := i) (by omega)
      simp only [valueAt, factorsFrom, List.getElem?_toArray, List.getElem?_cons_succ] at hrest ⊢
      rw [hrest, Phasor.toComplex_mul, pow_succ']
      ring

/-! ## A stage -/

section

variable {xs : Array (Phasor Exact)} {half block q : ℕ}

lemma size_stage (length : ℕ) : (stage xs length).size = xs.size := Array.size_ofFn

lemma valueAt_ofFn {n i : ℕ} (f : Fin n → Phasor Exact) (hi : i < n) :
    valueAt (Array.ofFn f) i = f ⟨i, hi⟩ := by
  rw [valueAt, Array.getElem?_eq_getElem (by rwa [Array.size_ofFn]), Array.getElem_ofFn,
    Option.getD_some]

/-- The first half of a joint block. -/
lemma valueAt_stage_lower (hq : q < half) (hend : (block + 1) * (2 * half) ≤ xs.size) :
    (valueAt (stage xs (2 * half)) (block * (2 * half) + q)).toComplex
      = (valueAt xs (2 * block * half + q)).toComplex
        + (valueAt xs ((2 * block + 1) * half + q)).toComplex * unityRoot (2 * half) ^ q := by
  have hlt : block * (2 * half) + q < xs.size := by
    rw [Nat.succ_mul] at hend
    omega
  have hmod : (block * (2 * half) + q) % (2 * half) = q := by
    rw [Nat.mul_comm, Nat.mul_add_mod, Nat.mod_eq_of_lt (by omega)]
  have hlower : block * (2 * half) + q = 2 * block * half + q := by ring
  have hupper : 2 * block * half + q + half = (2 * block + 1) * half + q := by ring
  rw [stage, Nat.mul_div_cancel_left half two_pos, combineBlocks, valueAt_ofFn _ hlt]
  simp only [hmod, if_pos hq]
  rw [Phasor.toComplex_add, Phasor.toComplex_mul, toComplex_valueAt_factorsFrom _ _ hq,
    Phasor.toComplex_one, one_mul, Phasor.toComplex_stageRoot, hlower, hupper]

/-- The second half of a joint block. -/
lemma valueAt_stage_upper (hq : q < half) (hend : (block + 1) * (2 * half) ≤ xs.size) :
    (valueAt (stage xs (2 * half)) (block * (2 * half) + (half + q))).toComplex
      = (valueAt xs (2 * block * half + q)).toComplex
        - (valueAt xs ((2 * block + 1) * half + q)).toComplex * unityRoot (2 * half) ^ q := by
  have hlt : block * (2 * half) + (half + q) < xs.size := by
    rw [Nat.succ_mul] at hend
    omega
  have hmod : (block * (2 * half) + (half + q)) % (2 * half) = half + q := by
    rw [Nat.mul_comm, Nat.mul_add_mod, Nat.mod_eq_of_lt (by omega)]
  have hupper : block * (2 * half) + (half + q) = (2 * block + 1) * half + q := by ring
  have hlower : (2 * block + 1) * half + q - half = 2 * block * half + q := by
    rw [Nat.succ_mul]
    omega
  rw [stage, Nat.mul_div_cancel_left half two_pos, combineBlocks, valueAt_ofFn _ hlt]
  simp only [hmod, if_neg (by omega : ¬half + q < half), Nat.add_sub_cancel_left]
  rw [Phasor.toComplex_sub, Phasor.toComplex_mul, toComplex_valueAt_factorsFrom _ _ hq,
    Phasor.toComplex_one, one_mul, Phasor.toComplex_stageRoot, hupper, hlower]

end

/-! ## All stages -/

section

variable {x : ℕ → ℂ} {xs : Array (Phasor Exact)} {r s : ℕ}

/-- The values are `2 ^ r` transforms, each of `2 ^ s` samples with the same last digits. -/
structure Transformed (x : ℕ → ℂ) (r s : ℕ) (xs : Array (Phasor Exact)) : Prop where
  size : xs.size = 2 ^ (r + s)
  blocks : ∀ block < 2 ^ r, ∀ q < 2 ^ s, (valueAt xs (block * 2 ^ s + q)).toComplex
    = fourier (2 ^ s) (fun t => x (reverseBits r block + 2 ^ r * t)) q

/-- The bit-reversed order has blocks of one sample. -/
lemma transformed_bitReversed (hsize : xs.size = 2 ^ r)
    (hx : ∀ i < 2 ^ r, (valueAt xs i).toComplex = x i) : Transformed x r 0 (bitReversed xs) := by
  refine ⟨size_bitReversed hsize, ?_⟩
  intro block hblock q hq
  obtain rfl : q = 0 := by omega
  rw [pow_zero, mul_one, add_zero, valueAt, getElem?_bitReversed hsize hblock, ← valueAt,
    hx _ (reverseBits_lt r block)]
  simp [fourier]

/-- A stage joins two blocks. -/
lemma Transformed.stage (h : Transformed x (r + 1) s xs) :
    Transformed x r (s + 1) (stage xs (2 ^ (s + 1))) := by
  refine ⟨?_, ?_⟩
  · rw [size_stage, h.size, Nat.add_right_comm, Nat.add_assoc]
  intro block hblock q hq
  have hblock' : block + 1 ≤ 2 ^ r := hblock
  have hend : (block + 1) * (2 * 2 ^ s) ≤ xs.size := by
    calc (block + 1) * (2 * 2 ^ s) ≤ 2 ^ r * (2 * 2 ^ s) := Nat.mul_le_mul_right _ hblock'
      _ = xs.size := by
        rw [h.size]
        ring
  have hlt : 2 * block + 1 < 2 ^ (r + 1) := by
    rw [pow_succ]
    omega
  have heven := h.blocks (2 * block) (by omega)
  have hodd := h.blocks (2 * block + 1) hlt
  rw [reverseBits_two_mul] at heven
  rw [reverseBits_two_mul_add_one] at hodd
  -- the positions of the samples of the two blocks, among those of the joint block
  have hpos (t : ℕ) : reverseBits r block + 2 ^ r * (2 * t) = reverseBits r block + 2 ^ (r + 1) * t := by
    rw [pow_succ]
    ring
  have hpos' (t : ℕ) : reverseBits r block + 2 ^ r * (2 * t + 1)
      = 2 ^ r + reverseBits r block + 2 ^ (r + 1) * t := by
    rw [pow_succ]
    ring
  rw [pow_succ'] at hq ⊢
  by_cases hlower : q < 2 ^ s
  · rw [valueAt_stage_lower hlower hend, heven q hlower, hodd q hlower, fourier_two_mul]
    simp only [hpos, hpos']
  · obtain ⟨p, rfl⟩ := Nat.exists_eq_add_of_le (not_lt.mp hlower)
    have hp : p < 2 ^ s := by omega
    rw [valueAt_stage_upper hp hend, heven p hp, hodd p hp,
      fourier_two_mul_add _ _ (by positivity)]
    simp only [hpos, hpos']

/-- The stages up to a length. -/
lemma transformed_foldl {k : ℕ} (hsize : xs.size = 2 ^ k)
    (hx : ∀ i < 2 ^ k, (valueAt xs i).toComplex = x i) (hs : r + s = k) :
    Transformed x r s (((List.range s).map fun i => 2 ^ (i + 1)).foldl EndlessRemix.stage
      (bitReversed xs)) := by
  induction s generalizing r with
  | zero =>
    subst hs
    exact transformed_bitReversed hsize hx
  | succ s ih =>
    rw [List.range_succ, List.map_append, List.foldl_append]
    exact (ih (by omega)).stage

/-- The lengths of the stages are the powers of two from two on, up to the size. -/
lemma stageLengths?_eq : ∀ k < 30, 1 ≤ k →
    stageLengths? (2 ^ k) = some ((List.range k).map fun i => 2 ^ (i + 1)) := by
  decide +kernel

/-- What the stages leave is the transform of all values. -/
theorem valueAt_transform {k : ℕ} (hsize : xs.size = 2 ^ k)
    (hx : ∀ i < 2 ^ k, (valueAt xs i).toComplex = x i) {q : ℕ} (hq : q < 2 ^ k) :
    (valueAt (transform ((List.range k).map fun i => 2 ^ (i + 1)) xs) q).toComplex
      = fourier (2 ^ k) x q := by
  have h := (transformed_foldl hsize hx (Nat.zero_add k)).blocks 0 one_pos q hq
  simpa [transform] using h

end

/-! ## The spectrum of a frame -/

/-- The samples of a frame that has a transform go through all its stages. -/
lemma magnitudeSpectrum_two_pow {R : Type} [Analytic R] {frame : Array R} {k : ℕ}
    (hsize : frame.size = 2 ^ k) (hk : 1 ≤ k) (hk30 : k < 30) :
    magnitudeSpectrum frame = .ok (Array.ofFn fun j : Fin (frame.size / 2 + 1) =>
      (valueAt (transform ((List.range k).map fun i => 2 ^ (i + 1))
        (frame.map fun value => ⟨value, 0⟩)) j).magnitude) := by
  obtain ⟨hpass, -⟩ := stageLengths?_two_pow k hk30 hk
  unfold magnitudeSpectrum
  dsimp only
  rw [hsize, if_pos hpass, stageLengths?_eq k hk30 hk]

lemma toComplex_valueAt_map {frame : Array Exact} {i : ℕ} (hi : i < frame.size) :
    (valueAt (frame.map fun value => (⟨value, 0⟩ : Phasor Exact)) i).toComplex
      = (frame[i].real : ℂ) := by
  rw [valueAt, Array.getElem?_map, Array.getElem?_eq_getElem hi, Option.map_some,
    Option.getD_some, Phasor.toComplex_sample]

/-- The transform of the samples of a frame, written with exponentials. -/
lemma fourier_frame (frame : Array Exact) (j : ℕ) :
    fourier frame.size (fun t => ((frame[t]?.getD ⟨0⟩).real : ℂ)) j
      = ∑ t : Fin frame.size, (frame[t].real : ℂ)
          * Complex.exp (-2 * Real.pi * Complex.I * j * t / frame.size) := by
  rw [fourier, Finset.sum_range]
  apply Finset.sum_congr rfl
  intro t _
  rw [unityRoot_pow, Array.getElem?_eq_getElem t.isLt, Option.getD_some]
  congr 2
  push_cast
  ring

/-- In exact arithmetic the spectrum of a frame is the absolute value of its discrete Fourier
transform, from frequency zero up to half the size. -/
theorem magnitudeSpectrum_eq_dft {frame : Array Exact} {k : ℕ} (hsize : frame.size = 2 ^ k)
    (hk : 1 ≤ k) (hk29 : k ≤ 29) :
    ∃ spectrum, magnitudeSpectrum frame = .ok spectrum ∧ spectrum.size = frame.size / 2 + 1
      ∧ ∀ (j : ℕ) (hj : j < spectrum.size), spectrum[j].real
        = ‖∑ t : Fin frame.size, (frame[t].real : ℂ)
            * Complex.exp (-2 * Real.pi * Complex.I * j * t / frame.size)‖ := by
  refine ⟨_, magnitudeSpectrum_two_pow hsize hk (by omega), Array.size_ofFn, ?_⟩
  intro j hj
  have hjsize : j < 2 ^ k := by
    have htwo : 2 ^ k = 2 * 2 ^ (k - 1) := by rw [← pow_succ', Nat.sub_add_cancel hk]
    have hone : 0 < 2 ^ (k - 1) := by positivity
    rw [Array.size_ofFn, hsize] at hj
    omega
  -- the samples as a sequence, of which only those of the frame matter
  have hsamples : ∀ i < 2 ^ k,
      (valueAt (frame.map fun value => (⟨value, 0⟩ : Phasor Exact)) i).toComplex
        = ((frame[i]?.getD ⟨0⟩).real : ℂ) := by
    intro i hi
    rw [← hsize] at hi
    rw [toComplex_valueAt_map hi, Array.getElem?_eq_getElem hi, Option.getD_some]
  rw [Array.getElem_ofFn, Phasor.magnitude_eq,
    valueAt_transform (by rw [Array.size_map, hsize]) hsamples hjsize, ← hsize, fourier_frame]

/-- The transform of eight values in two steps of halving. -/
lemma fourier_eight (x : ℕ → ℂ) (q : ℕ) :
    fourier 8 x q = x 0 + x 4 * (-1) ^ q + (-Complex.I) ^ q * (x 2 + x 6 * (-1) ^ q)
      + unityRoot 8 ^ q * (x 1 + x 5 * (-1) ^ q + (-Complex.I) ^ q * (x 3 + x 7 * (-1) ^ q)) := by
  rw [fourier, ← unityRoot_eight_pow_two, ← unityRoot_eight_pow_four]
  simp only [Finset.sum_range_succ, Finset.sum_range_zero]
  ring

lemma norm_three_add_mul_I {y : ℝ} (hy : y ^ 2 = 16) : ‖((3 : ℝ) + y * Complex.I : ℂ)‖ = 5 := by
  have hsquare : (3 : ℝ) ^ 2 + 16 = 5 ^ 2 := by norm_num
  rw [Complex.norm_add_mul_I, hy, hsquare, Real.sqrt_sq (by norm_num)]

/-- The spectrum of a frame of eight samples, which the three stages combine after the reversal of
their positions. -/
theorem magnitudeSpectrum_eq_dft_eight :
    ∃ spectrum,
      magnitudeSpectrum (#[⟨4⟩, ⟨1⟩, ⟨4⟩, ⟨1⟩, ⟨1⟩, ⟨1⟩, ⟨0⟩, ⟨1⟩] : Array Exact) = .ok spectrum
      ∧ spectrum = #[⟨13⟩, ⟨5⟩, ⟨1⟩, ⟨5⟩, ⟨5⟩] := by
  obtain ⟨spectrum, hspectrum, hsize, hvalue⟩ :=
    @magnitudeSpectrum_eq_dft #[⟨4⟩, ⟨1⟩, ⟨4⟩, ⟨1⟩, ⟨1⟩, ⟨1⟩, ⟨0⟩, ⟨1⟩] 3 rfl (by norm_num)
      (by norm_num)
  have hminus : ‖(3 - 4 * Complex.I : ℂ)‖ = 5 := by
    simpa [sub_eq_add_neg] using norm_three_add_mul_I (by norm_num : (-4 : ℝ) ^ 2 = 16)
  have hplus : ‖(3 + 4 * Complex.I : ℂ)‖ = 5 := by
    simpa using norm_three_add_mul_I (by norm_num : (4 : ℝ) ^ 2 = 16)
  refine ⟨spectrum, hspectrum, Array.ext hsize ?_⟩
  intro j hj hj'
  apply Exact.ext
  rw [hvalue j hj, ← fourier_frame]
  refine (congrArg norm (fourier_eight _ j)).trans ?_
  have hj5 : j < 5 := hj'
  have hthree : (-Complex.I) ^ 3 = Complex.I := by
    rw [Odd.neg_pow (by decide), Complex.I_pow_three, neg_neg]
  interval_cases j
  · norm_num
  · norm_num
    rwa [mul_comm, ← sub_eq_add_neg]
  · norm_num
  · norm_num [hthree]
    rwa [mul_comm]
  · norm_num [unityRoot_eight_pow_four]

end EndlessRemix
