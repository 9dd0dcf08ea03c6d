import EndlessRemix.Number.Numeral
import EndlessRemix.Number.Text
import EndlessRemix.Proofs.Number.Shortest

/-!
# The text of a whole number is read back

A whole double that is not below zero is written without a point, or with one and an exponent that
takes it to the end. Either way the text is a decimal numeral, and the number that it denotes is
rounded to the double again. A double below zero has a text that starts with a dash.
-/

namespace EndlessRemix

open Double

namespace Numeral

/-! ## Digits -/

section

variable {c : Char} {cs rest : List Char}

/-- The value of a decimal digit. -/
def digitOf (c : Char) : ℕ := c.toNat - '0'.toNat

lemma digit?_of_isDigit (h : c.isDigit = true) : digit? 10 c = some (digitOf c) := by
  have hbounds : '0' ≤ c ∧ c ≤ '9' := by
    simpa [Char.isDigit, Char.le_def] using h
  have hlt : c.toNat - '0'.toNat < 10 := by
    have hle : c.toNat ≤ '9'.toNat := hbounds.2
    have hnine : '9'.toNat = 57 := rfl
    have hzero : '0'.toNat = 48 := rfl
    omega
  rw [digit?, if_pos hbounds, if_pos hlt]
  rfl

/-- The digits at the front of a text are all read. -/
lemma digits_append (hcs : ∀ c ∈ cs, c.isDigit = true) (hrest : digits 10 rest = ([], rest)) :
    digits 10 (cs ++ rest) = (cs.map digitOf, rest) := by
  induction cs with
  | nil => exact hrest
  | cons c cs ih =>
    rw [List.cons_append, digits, digit?_of_isDigit (hcs c List.mem_cons_self)]
    simp only [ih fun d hd => hcs d (List.mem_cons_of_mem c hd), List.map_cons]

lemma value_map_digitOf (cs : List Char) : value 10 (cs.map digitOf) = Nat.ofDigitChars 10 cs 0 := by
  rw [value, List.foldl_map, Nat.ofDigitChars]
  congr 1
  funext n c
  rw [Nat.mul_comm]
  rfl

lemma isDigit_toDigits (n : ℕ) : ∀ c ∈ Nat.toDigits 10 n, c.isDigit = true := fun _ hc =>
  Nat.isDigit_of_mem_toDigits (by norm_num) le_rfl hc

lemma digits_all (hcs : ∀ c ∈ cs, c.isDigit = true) : digits 10 cs = (cs.map digitOf, []) := by
  have h := @digits_append cs [] hcs rfl
  rwa [List.append_nil] at h

lemma natural?_toDigits (n : ℕ) : natural? 10 (Nat.toDigits 10 n) = some n := by
  have hvalue := value_map_digitOf (Nat.toDigits 10 n)
  rw [Nat.ofDigitChars_ten_toDigits] at hvalue
  rw [natural?, digits_all (isDigit_toDigits n)]
  cases hdigits : Nat.toDigits 10 n with
  | nil => exact absurd hdigits Nat.toDigits_ne_nil
  | cons c cs =>
    rw [hdigits, List.map_cons] at hvalue
    exact congrArg some hvalue

lemma exponent?_plus (n : ℕ) : exponent? ('e' :: '+' :: Nat.toDigits 10 n) = some (n : ℤ) := by
  rw [exponent?, if_pos (.inl rfl)]
  simp only [sign, natural?_toDigits]
  rfl

/-! ## Decimal numerals -/

/-- No digit of a number stands in the name of the infinity. -/
lemma ne_infinity (hc : c.isDigit = true) : c :: cs ≠ "Infinity".toList := by
  intro h
  have hhead : c = 'I' := (List.cons.inj h).1
  rw [hhead] at hc
  exact absurd hc (by decide)

/-- A numeral of digits alone. -/
lemma unsigned?_digits (hc : c.isDigit = true) (hcs : ∀ d ∈ cs, d.isDigit = true) :
    unsigned? (c :: cs) = some (scaled (Nat.ofDigitChars 10 (c :: cs) 0) 0) := by
  have hall : ∀ d ∈ c :: cs, d.isDigit = true := List.forall_mem_cons.mpr ⟨hc, hcs⟩
  rw [unsigned?, if_neg (ne_infinity hc), digits_all hall]
  show some (scaled (value 10 ((c :: cs).map digitOf ++ [])) (0 - 0)) = _
  rw [List.append_nil, value_map_digitOf, sub_zero]

/-- The digits behind the point, and the point if there are any. -/
def fraction : List Char → List Char
  | [] => []
  | c :: cs => '.' :: c :: cs

/-- A numeral with one digit in front of the point and an exponent. -/
lemma unsigned?_scientific (hc : c.isDigit = true) (hcs : ∀ d ∈ cs, d.isDigit = true) (n : ℕ) :
    unsigned? (c :: (fraction cs ++ 'e' :: '+' :: Nat.toDigits 10 n))
      = some (scaled (Nat.ofDigitChars 10 (c :: cs) 0) (n - cs.length)) := by
  have hfirst : ∀ d ∈ [c], d.isDigit = true := by simpa using hc
  rw [unsigned?, if_neg (ne_infinity hc), ← value_map_digitOf]
  cases cs with
  | nil =>
    rw [fraction, List.nil_append, ← List.singleton_append, digits_append hfirst rfl]
    show (exponent? ('e' :: '+' :: Nat.toDigits 10 n)).map _ = _
    rw [exponent?_plus]
    rfl
  | cons d ds =>
    have hafter : digits 10 (d :: ds ++ 'e' :: '+' :: Nat.toDigits 10 n)
        = ((d :: ds).map digitOf, 'e' :: '+' :: Nat.toDigits 10 n) := digits_append hcs rfl
    rw [fraction, List.cons_append, ← List.singleton_append, digits_append hfirst rfl]
    simp only [hafter]
    show (exponent? ('e' :: '+' :: Nat.toDigits 10 n)).map _ = _
    rw [exponent?_plus, Option.map_some, List.length_map]
    rfl

/-- Only the digits decide what a numeral that starts with a digit and has no mark denotes. -/
lemma number?_of_isDigit (hc : c.isDigit = true)
    (hcs : ∀ d ∈ cs, d ∉ ['x', 'X', 'o', 'O', 'b', 'B']) : number? (c :: cs) = unsigned? (c :: cs) := by
  have hsign : sign (c :: cs) = (false, c :: cs) := by
    unfold sign
    split
    · rename_i heq
      obtain rfl : c = '-' := (List.cons.inj heq).1
      exact absurd hc (by decide)
    · rename_i heq
      obtain rfl : c = '+' := (List.cons.inj heq).1
      exact absurd hc (by decide)
    · rfl
  have hmark (mark : Char) (rest : List Char) (hmem : mark ∈ ['x', 'X', 'o', 'O', 'b', 'B']) :
      c :: cs ≠ '0' :: mark :: rest := by
    intro heq
    rw [(List.cons.inj heq).2] at hcs
    exact hcs mark List.mem_cons_self hmem
  unfold number?
  split
  iterate 6
    · rename_i heq
      exact absurd heq (hmark _ _ (by decide))
  · rw [hsign]
    simp

lemma trim_eq_self (hcs : ∀ d ∈ cs, isBlank d = false) : trim cs = cs := by
  have hdrop : ∀ ds : List Char, (∀ d ∈ ds, isBlank d = false) → ds.dropWhile isBlank = ds := by
    intro ds hds
    cases ds with
    | nil => rfl
    | cons d ds => rw [List.dropWhile_cons_of_neg (by simp [hds d List.mem_cons_self])]
  rw [trim, hdrop cs hcs, hdrop _ (by simpa using hcs), List.reverse_reverse]

/-- A character of a numeral with an exponent that is not negative. -/
def IsNumeralChar (c : Char) : Prop := c.isDigit = true ∨ c ∈ ['.', 'e', '+']

lemma isBlank_of_isNumeralChar (hc : IsNumeralChar c) : isBlank c = false := by
  rcases hc with hdigit | hmem
  · have hbounds : 48 ≤ c.toNat ∧ c.toNat ≤ 57 := by
      simpa [Char.isDigit, UInt32.le_iff_toNat_le] using hdigit
    simp only [isBlank, Bool.or_eq_false_iff, Bool.and_eq_false_iff, decide_eq_false_iff_not,
      beq_eq_false_iff_ne]
    omega
  · fin_cases hmem <;> decide

lemma not_mem_marks_of_isNumeralChar (hc : IsNumeralChar c) :
    c ∉ ['x', 'X', 'o', 'O', 'b', 'B'] := by
  intro hmem
  rcases hc with hdigit | hmem'
  · fin_cases hmem <;> exact absurd hdigit (by decide)
  · fin_cases hmem <;> exact absurd hmem' (by decide)

lemma isNumeralChar_scientific (hcs : ∀ d ∈ cs, d.isDigit = true) (n : ℕ) :
    ∀ d ∈ fraction cs ++ 'e' :: '+' :: Nat.toDigits 10 n, IsNumeralChar d := by
  have hfraction : ∀ d ∈ fraction cs, IsNumeralChar d := by
    cases cs with
    | nil => simp [fraction]
    | cons c cs =>
      intro d hd
      rcases List.mem_cons.mp hd with rfl | hd
      · exact .inr (by decide)
      · exact .inl (hcs d hd)
  intro d hd
  rw [List.mem_append, List.mem_cons, List.mem_cons] at hd
  rcases hd with hd | rfl | rfl | hd
  · exact hfraction d hd
  · exact .inr (by decide)
  · exact .inr (by decide)
  · exact .inl (isDigit_toDigits n d hd)

/-- A numeral without a sign is read as it stands. -/
lemma read?_of_isDigit (hc : c.isDigit = true) (hcs : ∀ d ∈ cs, IsNumeralChar d) :
    read? (String.ofList (c :: cs)) = (unsigned? (c :: cs)).filter Float.isFinite := by
  have hall : ∀ d ∈ c :: cs, isBlank d = false := by
    intro d hd
    rcases List.mem_cons.mp hd with rfl | hd
    · exact isBlank_of_isNumeralChar (.inl hc)
    · exact isBlank_of_isNumeralChar (hcs d hd)
  rw [read?, String.toList_ofList, trim_eq_self hall,
    number?_of_isDigit hc fun d hd => not_mem_marks_of_isNumeralChar (hcs d hd)]

end

lemma ofDigitChars_zeros (n k : ℕ) :
    Nat.ofDigitChars 10 (List.replicate k '0') n = n * 10 ^ k := by
  induction k generalizing n with
  | zero => rw [pow_zero, mul_one]; rfl
  | succ k ih =>
    rw [List.replicate_succ]
    show Nat.ofDigitChars 10 (List.replicate k '0') (10 * n + 0) = _
    rw [ih, pow_succ]
    ring

end Numeral

/-! ## Laying out -/

namespace NumberStyle

open Numeral

section

variable {digits k : ℕ} {c : Char} {cs : List Char}

/-- Up to 21 places the zeros of the exponent are written out. -/
lemma layout_positional (htext : Nat.toDigits 10 digits = c :: cs) (hpoint : cs.length + 1 + k ≤ 21) :
    message.layout ⟨digits, k⟩ = String.ofList (c :: (cs ++ List.replicate k '0')) := by
  have hlow : (-6 : ℤ) < (cs.length + 1 : ℕ) + k := by omega
  have hhigh : ((cs.length + 1 : ℕ) : ℤ) + k ≤ 21 := by omega
  simp only [layout, htext, List.length_cons, Int.toNat_natCast]
  rw [if_pos ⟨hlow, hhigh⟩, if_neg (by omega), if_pos (by omega), List.cons_append]

/-- Beyond that there is one digit in front of the point, and an exponent. -/
lemma layout_scientific (htext : Nat.toDigits 10 digits = c :: cs)
    (hpoint : 21 < cs.length + 1 + k) :
    message.layout ⟨digits, k⟩
      = String.ofList (c :: (fraction cs ++ 'e' :: '+' :: Nat.toDigits 10 (cs.length + k))) := by
  have hnatAbs : (((cs.length + 1 : ℕ) : ℤ) + k - 1).natAbs = cs.length + k := by omega
  have hhigh : ¬((cs.length + 1 : ℕ) : ℤ) + k ≤ 21 := by omega
  simp only [layout, htext, List.length_cons]
  rw [if_neg fun h => hhigh h.2, if_neg (by omega), hnatAbs]
  cases cs <;> rfl

end

/-- The text of a decimal without digits behind the point is a numeral for its number. -/
theorem read?_layout {d : Decimal} (hexponent : 0 ≤ d.exponent) :
    ∃ (c : Char) (cs : List Char) (m e : ℕ), c.isDigit = true
      ∧ message.layout d = String.ofList (c :: cs)
      ∧ m * 10 ^ e = d.digits * 10 ^ d.exponent.toNat
      ∧ read? (message.layout d) = (some (scaled m e)).filter Float.isFinite := by
  obtain ⟨digits, exponent⟩ := d
  obtain ⟨k, rfl⟩ := Int.eq_ofNat_of_zero_le hexponent
  have hvalue : Nat.ofDigitChars 10 (Nat.toDigits 10 digits) 0 = digits :=
    Nat.ofDigitChars_ten_toDigits
  have hdigits := isDigit_toDigits digits
  cases htext : Nat.toDigits 10 digits with
  | nil => exact absurd htext Nat.toDigits_ne_nil
  | cons c cs =>
    rw [htext] at hvalue hdigits
    obtain ⟨hc, hcs⟩ := List.forall_mem_cons.mp hdigits
    by_cases hpoint : cs.length + 1 + k ≤ 21
    · have hall : ∀ d ∈ cs ++ List.replicate k '0', d.isDigit = true := by
        intro d hd
        rcases List.mem_append.mp hd with hd | hd
        · exact hcs d hd
        · rw [List.eq_of_mem_replicate hd]
          rfl
      have hlayout := layout_positional htext hpoint
      refine ⟨c, cs ++ List.replicate k '0', digits * 10 ^ k, 0, hc, hlayout, mul_one _, ?_⟩
      rw [hlayout, read?_of_isDigit hc fun d hd => .inl (hall d hd),
        unsigned?_digits hc hall, ← List.cons_append, Nat.ofDigitChars, List.foldl_append,
        ← Nat.ofDigitChars, ← Nat.ofDigitChars, hvalue, ofDigitChars_zeros]
      rfl
    · have hlayout := layout_scientific htext (by omega : 21 < cs.length + 1 + k)
      refine ⟨c, _, digits, k, hc, hlayout, rfl, ?_⟩
      rw [hlayout, read?_of_isDigit hc (isNumeralChar_scientific hcs _),
        unsigned?_scientific hc hcs, hvalue, Nat.cast_add, add_sub_cancel_left]

end NumberStyle

/-! ## The text of a whole double -/

open Float.Model.UnpackedFloat

/-- A natural that is scaled by a power of ten is read as the double in whose interval it is. -/
lemma value?_scaled {m e n : ℕ} {f : ℤ} {hn : 0 < n} (hm : 0 < m)
    (hc : Canonical (.finite .positive n f hn)) (hq : Nearest (m * 10 ^ e) n f) :
    value? (Numeral.scaled m e) = some ((n : ℚ) * 2 ^ f) := by
  have hwidth : (Nat.toDigits 10 m).length + e ≤ 400 := by
    have hdigits : ((10 ^ (Decimal.width m - 1) : ℕ) : ℚ) ≤ m := by
      exact_mod_cast Decimal.ten_pow_width_le hm
    have hpow : (10 : ℚ) ^ (Decimal.width m - 1 + e) ≤ m * 10 ^ e := by
      rw [pow_add]
      push_cast at hdigits
      exact mul_le_mul_of_nonneg_right hdigits (by positivity)
    have hlt := hq.exponent_lt hc hpow
    rw [Decimal.width] at hlt
    omega
  have hpoint : ¬(m = 0 ∨ ((Nat.toDigits 10 m).length : ℤ) + e < -400) := by omega
  have hnonneg : decide ((e : ℤ) < 0) = false := decide_eq_false (by omega)
  rw [Numeral.scaled, if_neg hpoint, if_neg (by omega), hnonneg, Int.natAbs_natCast]
  exact value?_ofScientific hm hc hq

lemma filter_isFinite {y : Float} {q : ℚ} (h : value? y = some q) :
    (some y).filter Float.isFinite = some y := by
  have hfinite : y.isFinite = true := (isFinite_iff y).mpr ⟨q, h⟩
  rw [Option.filter_some, if_pos hfinite]

/-- The text of zero, whatever its sign. -/
lemma read?_zero : ∃ y, Numeral.read? "0" = some y ∧ value? y = some 0 := by
  have hread := @Numeral.read?_of_isDigit '0' [] rfl (by simp)
  rw [Numeral.unsigned?_digits rfl (by simp)] at hread
  exact ⟨0, hread.trans (filter_isFinite value?_zero), value?_zero⟩

/-- The text of a decimal that is rounded to a double is read as a double of the same value, and
starts with a digit. -/
lemma read?_layout_of_nearest {d : Decimal} {n : ℕ} {f : ℤ} {hn : 0 < n} (hexponent : 0 ≤ d.exponent)
    (hc : Canonical (.finite .positive n f hn)) (hq : Nearest d.value n f) :
    (∃ y, Numeral.read? (NumberStyle.message.layout d) = some y
        ∧ value? y = some ((n : ℚ) * 2 ^ f))
      ∧ ∃ c cs, c.isDigit = true ∧ NumberStyle.message.layout d = String.ofList (c :: cs) := by
  obtain ⟨c, cs, m, e, hdigit, hlayout, hscale, hread⟩ := NumberStyle.read?_layout hexponent
  have hvalue : d.value = m * 10 ^ e := by
    rw [Decimal.value_of_nonneg hexponent, ← hscale]
    push_cast
    rfl
  rw [hvalue] at hq
  have hm : 0 < m := by
    by_contra hzero
    have hpos := hq.pos hn
    rw [Nat.eq_zero_of_not_pos hzero, Nat.cast_zero, zero_mul] at hpos
    exact lt_irrefl _ hpos
  have hscaled := value?_scaled hm hc hq
  exact ⟨⟨_, hread.trans (filter_isFinite hscaled), hscaled⟩, c, cs, hdigit, hlayout⟩

/-- The text of a whole double that is not below zero is read as a double of the same value, and
does not start with a dash. -/
theorem read?_numberText {x : Float} {v : ℕ} (h : value? x = some (v : ℚ)) :
    (∃ y, Numeral.read? (numberText x) = some y ∧ value? y = some (v : ℚ))
      ∧ ∃ c cs, c.isDigit = true ∧ numberText x = String.ofList (c :: cs) := by
  have hcanonical := canonical_unpacked x
  rw [numberText, datum_eq]
  unfold value? at h
  generalize unpacked x = u at *
  cases u with
  | notANumber => cases h
  | infinity s => cases h
  | zero s =>
    obtain rfl : v = 0 := by exact_mod_cast (Option.some.inj h).symm
    rw [Nat.cast_zero]
    exact ⟨read?_zero, '0', [], rfl, rfl⟩
  | finite s m e hm =>
    obtain rfl := eq_positive_of_nonneg h (Nat.cast_nonneg v)
    have hv : (m : ℚ) * 2 ^ e = v := Option.some.inj h
    obtain ⟨hnearest, hexponent⟩ := Decimal.shortest_whole hcanonical hv
    have htext : NumberStyle.message.text (datumOf (.finite .positive m e hm))
        = NumberStyle.message.layout (Decimal.shortest m e) := by
      show (if m = 0 then "0" else "" ++ _) = _
      rw [if_neg hm.ne', String.empty_append]
    rw [htext, ← hv]
    exact read?_layout_of_nearest hexponent hcanonical hnearest

/-- The text of a whole double below zero starts with a dash, and goes on. -/
theorem numberText_negative {x : Float} {v : ℕ} (hv : 0 < v) (h : value? x = some (-(v : ℚ))) :
    ∃ c cs, numberText x = String.ofList ('-' :: c :: cs) := by
  have hcanonical := canonical_unpacked x
  have hpos : (0 : ℚ) < v := by exact_mod_cast hv
  rw [numberText, datum_eq]
  unfold value? at h
  generalize unpacked x = u at *
  cases u with
  | notANumber => cases h
  | infinity s => cases h
  | zero s =>
    have hzero : (0 : ℚ) = -v := Option.some.inj h
    linarith
  | finite s m e hm =>
    have hvalue : ((s.apply m : ℤ) : ℚ) * 2 ^ e = -v := Option.some.inj h
    cases s with
    | positive =>
      have hnonneg : (0 : ℚ) ≤ ((m : ℤ) : ℚ) * 2 ^ e := by positivity
      simp only [Sign.apply] at hvalue
      linarith
    | negative =>
      have habs : (m : ℚ) * 2 ^ e = v := by
        simp only [Sign.apply] at hvalue
        push_cast at hvalue
        linarith
      obtain ⟨-, hexponent⟩ := Decimal.shortest_whole hcanonical habs
      obtain ⟨c, cs, -, -, -, hlayout, -⟩ := NumberStyle.read?_layout hexponent
      refine ⟨c, cs, ?_⟩
      show (if m = 0 then "0" else "-" ++ NumberStyle.message.layout (Decimal.shortest m e)) = _
      rw [if_neg hm.ne', hlayout]
      apply String.ext
      simp

end EndlessRemix
