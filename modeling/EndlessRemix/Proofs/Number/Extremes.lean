import EndlessRemix.Proofs.Number.Reals

/-!
# The smaller and the larger of two numbers

Of two numbers one is the smaller, and it is at most the other. Doubles keep this exactly: nothing
is rounded when they are compared, and two zeros with different signs are one another's equals. Only
what is no number is not at most itself, and that is below nothing.
-/

namespace EndlessRemix

/-- The laws of an arithmetic that chooses between two numbers without rounding. -/
class OrderedArithmetic (R : Type) [Scalar R] : Prop where
  le_self_of_lt : ∀ {x t : R}, x < t → x ≤ x
  le_trans : ∀ {x y z : R}, x ≤ y → y ≤ z → x ≤ z
  min_cases : ∀ {x y : R}, x ≤ x → y ≤ y → (min x y = x ∧ x ≤ y) ∨ (min x y = y ∧ y ≤ x)
  max_cases : ∀ {x y : R}, x ≤ x → y ≤ y → (max x y = x ∧ y ≤ x) ∨ (max x y = y ∧ x ≤ y)

open Float.Model (UnpackedFloat)

namespace Double

/-! ## Comparable doubles -/

lemma compare_self {u : UnpackedFloat} (h : u ≠ .notANumber) : u.compare u = some .eq := by
  cases u with
  | notANumber => exact absurd rfl h
  | infinity s => cases s <;> rfl
  | zero s => rfl
  | finite s m e hm => cases s <;> simp [Float.Model.UnpackedFloat.compare]

section

variable {x y z : Float}

/-- What is at most itself is a number. -/
lemma le_self_iff : x ≤ x ↔ unpacked x ≠ .notANumber := by
  rw [le_iff, Float.Model.UnpackedFloat.le]
  by_cases h : unpacked x = .notANumber
  · rw [h]
    exact iff_of_false Bool.false_ne_true (absurd rfl)
  · rw [compare_self h]
    exact iff_of_true rfl h

lemma ne_notANumber_of_lt (h : x < y) : unpacked x ≠ .notANumber := fun hnan =>
  not_notANumber_lt hnan h

/-- The smallest infinity is at most every number. -/
lemma negInfinity_le (hx : unpacked x = .infinity .negative) (hy : unpacked y ≠ .notANumber) :
    x ≤ y := by
  rw [le_iff, hx]
  cases hv : unpacked y with
  | notANumber => exact absurd hv hy
  | infinity t => cases t <;> rfl
  | _ => rfl

/-- Every number is at most the largest infinity. -/
lemma le_infinity (hx : unpacked x ≠ .notANumber) (hy : unpacked y = .infinity .positive) :
    x ≤ y := by
  rw [le_iff, hy]
  cases hu : unpacked x with
  | notANumber => exact absurd hu hx
  | infinity s => cases s <;> rfl
  | zero s => rfl
  | finite s m e hm => cases s <;> rfl

protected lemma le_trans (hxy : x ≤ y) (hyz : y ≤ z) : x ≤ z := by
  rcases le_cases hxy with ⟨hx, -⟩ | ⟨hy, hx⟩ | ⟨a, b, ha, hb, hab⟩
  · refine negInfinity_le hx ?_
    rcases le_cases hyz with ⟨-, hz⟩ | ⟨hz, -⟩ | ⟨b, c, -, hc, -⟩
    · exact hz
    · rw [hz]
      exact nofun
    · intro hz
      rw [value?, hz] at hc
      cases hc
  · exact le_infinity hx (unpacked_infinity_of_le hy hyz)
  · rcases exists_value_of_le hb hyz with ⟨c, hc⟩ | hz
    · have hbc := (le_iff_of_value hb hc).mp hyz
      exact (le_iff_of_value ha hc).mpr (hab.trans hbc)
    · exact le_of_lt (lt_infinity ha hz)

/-- Two numbers are in order or equal. -/
lemma order_of_numbers (hx : x ≤ x) (hy : y ≤ y) : x < y ∨ y < x ∨ (x == y) = true := by
  rw [le_self_iff] at hx hy
  rcases h : (unpacked x).compare (unpacked y) with _ | o
  · exact absurd (compare_eq_none h) (by simp [hx, hy])
  · have hswap := compare_swap (unpacked x) (unpacked y)
    rw [h] at hswap
    rw [lt_iff, lt_iff, beq_iff, Float.Model.UnpackedFloat.lt, Float.Model.UnpackedFloat.lt,
      Float.Model.UnpackedFloat.beq, h, hswap]
    cases o <;> simp

lemma le_of_beq (h : (x == y) = true) : x ≤ y := by
  rw [beq_iff, Float.Model.UnpackedFloat.beq, beq_iff_eq] at h
  rw [le_iff, Float.Model.UnpackedFloat.le, h]
  rfl

lemma beq_symm (h : (x == y) = true) : (y == x) = true := by
  rw [beq_iff, Float.Model.UnpackedFloat.beq, beq_iff_eq] at h ⊢
  rw [compare_swap, h]
  rfl

/-- Of two equal doubles, the one with the sign bit of either is one of them. -/
lemma or_eq_of_beq (h : (x == y) = true) :
    Float.ofBits (x.toBits ||| y.toBits) = x ∨ Float.ofBits (x.toBits ||| y.toBits) = y := by
  rcases eq_or_zero_of_beq h with rfl | ⟨s, t, hx, hy⟩
  · rw [UInt64.or_self, Float.ofBits_toBits]
    exact .inl rfl
  · rw [← packed_unpacked x, ← packed_unpacked y, hx, hy]
    cases s <;> cases t <;> first | exact .inl rfl | exact .inr rfl

/-- So is the one with the sign bit that both have. -/
lemma and_eq_of_beq (h : (x == y) = true) :
    Float.ofBits (x.toBits &&& y.toBits) = x ∨ Float.ofBits (x.toBits &&& y.toBits) = y := by
  rcases eq_or_zero_of_beq h with rfl | ⟨s, t, hx, hy⟩
  · rw [UInt64.and_self, Float.ofBits_toBits]
    exact .inl rfl
  · rw [← packed_unpacked x, ← packed_unpacked y, hx, hy]
    cases s <;> cases t <;> first | exact .inl rfl | exact .inr rfl

end

instance : OrderedArithmetic Float where
  le_self_of_lt h := le_self_iff.mpr (ne_notANumber_of_lt h)
  le_trans := Double.le_trans
  min_cases {x y} hx hy := by
    show (Double.min x y = x ∧ x ≤ y) ∨ (Double.min x y = y ∧ y ≤ x)
    rw [Double.min]
    split_ifs with hlt hgt heq
    · exact .inl ⟨rfl, le_of_lt hlt⟩
    · exact .inr ⟨rfl, le_of_lt hgt⟩
    · exact (or_eq_of_beq heq).imp (⟨·, le_of_beq heq⟩) (⟨·, le_of_beq (beq_symm heq)⟩)
    · exact absurd (order_of_numbers hx hy) (by simp [hlt, hgt, heq])
  max_cases {x y} hx hy := by
    show (Double.max x y = x ∧ y ≤ x) ∨ (Double.max x y = y ∧ x ≤ y)
    rw [Double.max]
    split_ifs with hlt hgt heq
    · exact .inr ⟨rfl, le_of_lt hlt⟩
    · exact .inl ⟨rfl, le_of_lt hgt⟩
    · exact (and_eq_of_beq heq).imp (⟨·, le_of_beq (beq_symm heq)⟩) (⟨·, le_of_beq heq⟩)
    · exact absurd (order_of_numbers hx hy) (by simp [hlt, hgt, heq])

end Double

/-! ## Exact arithmetic -/

/-- The real numbers are ordered in this way. -/
instance : OrderedArithmetic Exact where
  le_self_of_lt {x _} _ := le_refl x.real
  le_trans hxy hyz := le_trans (α := ℝ) hxy hyz
  min_cases {x y} _ _ := by
    rcases le_total x.real y.real with h | h
    · exact .inl ⟨Exact.ext (min_eq_left h), h⟩
    · exact .inr ⟨Exact.ext (min_eq_right h), h⟩
  max_cases {x y} _ _ := by
    rcases le_total x.real y.real with h | h
    · exact .inr ⟨Exact.ext (max_eq_right h), h⟩
    · exact .inl ⟨Exact.ext (max_eq_left h), h⟩

/-! ## Extremes of a list -/

section

variable {R : Type} [Scalar R]

/-- A number of the list that is at most every other. -/
def LeastOf (xs : List R) (x : R) : Prop := x ∈ xs ∧ ∀ y ∈ xs, x ≤ y

/-- A number of the list that every other is at most. -/
def GreatestOf (xs : List R) (x : R) : Prop := x ∈ xs ∧ ∀ y ∈ xs, y ≤ x

section

variable {xs ys : List R} {x y : R}

lemma LeastOf.congr (h : LeastOf xs x) (hmem : ∀ z, z ∈ ys ↔ z ∈ xs) : LeastOf ys x :=
  ⟨(hmem x).mpr h.1, fun y hy => h.2 y ((hmem y).mp hy)⟩

lemma GreatestOf.congr (h : GreatestOf xs x) (hmem : ∀ z, z ∈ ys ↔ z ∈ xs) : GreatestOf ys x :=
  ⟨(hmem x).mpr h.1, fun y hy => h.2 y ((hmem y).mp hy)⟩

lemma leastOf_singleton (hy : y ≤ y) : LeastOf [y] y := by
  simp [LeastOf, hy]

lemma greatestOf_singleton (hy : y ≤ y) : GreatestOf [y] y := by
  simp [GreatestOf, hy]

variable [OrderedArithmetic R]

open OrderedArithmetic

/-- The least number of a longer list is the smaller one of the new number and the least before. -/
lemma LeastOf.cons_min (h : LeastOf xs x) (hy : y ≤ y) : LeastOf (y :: xs) (min x y) := by
  rcases min_cases (h.2 x h.1) hy with ⟨heq, hle⟩ | ⟨heq, hle⟩
  · rw [heq]
    exact ⟨List.mem_cons_of_mem _ h.1, List.forall_mem_cons.mpr ⟨hle, h.2⟩⟩
  · rw [heq]
    refine ⟨List.mem_cons_self, List.forall_mem_cons.mpr ⟨hy, ?_⟩⟩
    intro z hz
    exact le_trans hle (h.2 z hz)

/-- The greatest is the larger one of the new number and the greatest before. -/
lemma GreatestOf.cons_max (h : GreatestOf xs x) (hy : y ≤ y) : GreatestOf (y :: xs) (max x y) := by
  rcases max_cases (h.2 x h.1) hy with ⟨heq, hle⟩ | ⟨heq, hle⟩
  · rw [heq]
    exact ⟨List.mem_cons_of_mem _ h.1, List.forall_mem_cons.mpr ⟨hle, h.2⟩⟩
  · rw [heq]
    refine ⟨List.mem_cons_self, List.forall_mem_cons.mpr ⟨hy, ?_⟩⟩
    intro z hz
    exact le_trans (h.2 z hz) hle

/-- The greatest number of a list is found by going through it. -/
lemma greatestOf_foldl_max (hy : ∀ z ∈ y :: xs, z ≤ z) : GreatestOf (y :: xs) (xs.foldl max y) := by
  induction xs using List.reverseRecOn with
  | nil => exact greatestOf_singleton (hy y List.mem_cons_self)
  | append_singleton xs x ih =>
    rw [← List.cons_append] at hy
    have hinit := ih fun z hz => hy z (List.mem_append_left [x] hz)
    have hlast : x ≤ x := hy x (List.mem_append_right _ (List.mem_singleton_self x))
    rw [List.foldl_append, List.foldl_cons, List.foldl_nil]
    refine (hinit.cons_max hlast).congr ?_
    intro z
    simp only [List.mem_cons, List.mem_append, List.not_mem_nil, or_false]
    tauto

end

end

end EndlessRemix
