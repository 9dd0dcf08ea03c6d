import Mathlib
import EndlessRemix.Number.Double

/-!
# The parts of a double

A `Float` is computed with by unpacking it into a sign, a mantissa and an exponent and packing the
result again. Here the words of doubles are opened once: what unpacking gives (`Canonical`), that
packing takes it back, and that the library's own reading of a word (`WordFormat.decode`) gives the
same number.
-/

namespace EndlessRemix

open Float.Model (Format UnpackedFloat)
open Float.Model.UnpackedFloat

namespace Double

/-- The parts of a double. -/
def unpacked (x : Float) : UnpackedFloat := x.toModel.unpack

/-- The double nearest to given parts. -/
def packed (u : UnpackedFloat) : Float := .ofModel (.pack u)

theorem packed_unpacked (x : Float) : packed (unpacked x) = x := Float.ofBits_toBits x

/-- Doubles with the same parts are the same. -/
theorem unpacked_injective : Function.Injective unpacked :=
  Function.LeftInverse.injective packed_unpacked

/-! ## Words and their fields -/

/-- What the three fields of a word stand for. -/
theorem unpack_packComponents (s : Sign) (e : BitVec 11) (m : BitVec 52) :
    unpack .binary64 (packComponents .binary64 s e m) =
      if e = -1#11 then if m = 0#52 then .infinity s else .notANumber
      else if e = 0#11 then
        if h : m = 0#52 then .zero s
        else .finite s m.toNat (-1074) (by simpa [BitVec.toNat_pos, BitVec.pos_iff_ne_zero])
      else .finite s (2 ^ 52 + m.toNat) (e.toNat - 1075) (by positivity) := by
  have hm : (1#1 ++ m).toNat = 2 ^ 52 + m.toNat := by
    rw [BitVec.toNat_append, ← Nat.shiftLeft_add_eq_or_of_lt m.isLt]
    simp [Nat.shiftLeft_eq]
  have hb : ((Format.binary64.exponentBias : ℕ) : ℤ) = 1023 := rfl
  simp only [unpack, unpackMantissa_packComponents, unpackExponent_packComponents,
    unpackSign_packComponents, Sign.ofBitVec_toBitVec, hm, hb]
  split_ifs with h1 h2 h3 h4
  · rfl
  · rfl
  · rfl
  · simp [h3]
  · simp

/-- The fields in which finite parts are packed. -/
theorem pack_finite (s : Sign) (m : ℕ) (e : ℤ) (hm : 0 < m) :
    pack .binary64 (.finite s m e hm) =
      if 2047 ≤ (e + 1075).toNat then packComponents .binary64 s (-1#11) 0#52
      else if m.log2 = 52 then
        packComponents .binary64 s (.ofNat 11 (e + 1075).toNat) (.ofNat 52 m)
      else packComponents .binary64 s 0#11 (.ofNat 52 m) := by
  have hb : (e + ((Format.binary64.exponentBias : ℕ) : ℤ) + ((52 : ℕ) : ℤ)).toNat
      = (e + 1075).toNat := by
    show (e + 1023 + 52).toNat = _
    congr 1
    ring
  have hp : Format.binary64.mantissaBits = 53 := rfl
  simp only [pack, packedInfinity, hb, hp]
  congr 1
  · simp
  · simp

lemma toNat_neg_one : (-1#11).toNat = 2047 := rfl

/-- A word is the word of its fields. -/
lemma packComponents_fields (b : BitVec 64) :
    packComponents .binary64 (.ofBitVec (@unpackSign .binary64 b))
      (@unpackExponent .binary64 b) (@unpackMantissa .binary64 b) = b :=
  @packComponents_unpackSign_unpackExponent_unpackMantissa .binary64 b

/-! ## Canonical parts -/

/-- The parts that a word can have: the mantissa fills its 53 bits, unless the exponent is the least
one. -/
def Canonical : UnpackedFloat → Prop
  | .finite _ m e _ => m < 2 ^ 53 ∧ (2 ^ 52 ≤ m ∨ e = -1074) ∧ -1074 ≤ e ∧ e ≤ 971
  | _ => True

theorem canonical_unpack (b : BitVec 64) : Canonical (unpack .binary64 b) := by
  rw [← packComponents_fields b, unpack_packComponents]
  have hM : (@unpackMantissa .binary64 b).toNat < 2 ^ 52 := BitVec.isLt _
  have hE : (@unpackExponent .binary64 b).toNat < 2 ^ 11 := BitVec.isLt _
  split_ifs with h1 h2 h3 h4
  · trivial
  · trivial
  · trivial
  · exact ⟨by omega, .inr rfl, by omega, by omega⟩
  · rw [← BitVec.toNat_inj, toNat_neg_one] at h1
    rw [← BitVec.toNat_inj, BitVec.toNat_zero] at h3
    exact ⟨by omega, .inl (by omega), by omega, by omega⟩

theorem canonical_unpacked (x : Float) : Canonical (unpacked x) := canonical_unpack _

/-- Packing loses nothing of canonical parts. -/
theorem unpack_pack {u : UnpackedFloat} (h : Canonical u) :
    unpack .binary64 (pack .binary64 u) = u := by
  cases u with
  | notANumber => rfl
  | infinity s => cases s <;> rfl
  | zero s => cases s <;> rfl
  | finite s m e hm =>
    obtain ⟨hlt, hn, hl, hu⟩ := h
    rw [pack_finite, if_neg (by omega)]
    by_cases hlog : m.log2 = 52
    · -- the leading bit is dropped, and the exponent field is not zero
      have h52 : 2 ^ 52 ≤ m := by
        rw [← hlog]
        exact Nat.log2_self_le hm.ne'
      have hE : (BitVec.ofNat 11 (e + 1075).toNat).toNat = (e + 1075).toNat := by
        rw [BitVec.toNat_ofNat, Nat.mod_eq_of_lt (by omega)]
      have hM : (BitVec.ofNat 52 m).toNat = m - 2 ^ 52 := by
        rw [BitVec.toNat_ofNat]
        omega
      have hm' : 2 ^ 52 + (m - 2 ^ 52) = m := by omega
      have he' : ((e + 1075).toNat : ℤ) - 1075 = e := by omega
      rw [if_pos hlog, unpack_packComponents, if_neg, if_neg]
      · simp only [hE, hM, hm', he']
      · rw [← BitVec.toNat_inj, hE, BitVec.toNat_zero]
        omega
      · rw [← BitVec.toNat_inj, hE, toNat_neg_one]
        omega
    · -- a short mantissa stands at the least exponent
      have h52 : m < 2 ^ 52 := by
        by_contra hge
        exact hlog ((Nat.log2_eq_iff hm.ne').mpr ⟨by omega, by omega⟩)
      have he : e = -1074 := hn.resolve_left (by omega)
      have hM : (BitVec.ofNat 52 m).toNat = m := by
        rw [BitVec.toNat_ofNat, Nat.mod_eq_of_lt h52]
      rw [if_neg hlog, unpack_packComponents, if_neg (by decide), if_pos rfl, dif_neg]
      · simp only [hM, he]
      · rw [← BitVec.toNat_inj, hM, BitVec.toNat_zero]
        omega

theorem unpacked_packed {u : UnpackedFloat} (h : Canonical u) : unpacked (packed u) = u :=
  unpack_pack h

/-! ## The number of a word -/

/-- The number with given parts. -/
def datumOf : UnpackedFloat → Datum
  | .notANumber => .notANumber
  | .infinity s => .infinite (s == .negative)
  | .zero s => .finite (s == .negative) 0 (-1074)
  | .finite s m e _ => .finite (s == .negative) m e

/-- Decoding a word reads the same fields as unpacking it. -/
theorem decode_eq (b : BitVec 64) :
    WordFormat.double.decode b.toNat = datumOf (unpack .binary64 b) := by
  have hM : (@unpackMantissa .binary64 b).toNat = b.toNat % 2 ^ 52 := by
    rw [unpackMantissa_def, BitVec.extractLsb'_toNat]
    simp
  have hE : (@unpackExponent .binary64 b).toNat = b.toNat / 2 ^ 52 % 2 ^ 11 := by
    rw [unpackExponent_def, BitVec.extractLsb'_toNat, Nat.shiftRight_eq_div_pow]
  have hS : (@unpackSign .binary64 b).toNat = b.toNat / 2 ^ 63 % 2 := by
    rw [unpackSign_def, BitVec.extractLsb'_toNat, Nat.shiftRight_eq_div_pow]
    rfl
  have hs : (b.toNat / 2 ^ 63 % 2 == 1)
      = (Sign.ofBitVec (@unpackSign .binary64 b) == .negative) := by
    rw [← hS]
    generalize @unpackSign .binary64 b = v
    revert v
    decide
  have h52 : WordFormat.double.fractionBits = 52 := rfl
  have h11 : WordFormat.double.exponentBits = 11 := rfl
  have hl : WordFormat.double.leastExponent = -1074 := rfl
  have ht : WordFormat.double.topField = 2047 := rfl
  simp only [WordFormat.decode, Nat.pow_eq, h52, h11, hl, ht, ← hM, ← hE, hs, Nat.reduceAdd]
  conv_rhs => rw [← packComponents_fields b, unpack_packComponents]
  simp only [← BitVec.toNat_inj, toNat_neg_one, BitVec.toNat_zero]
  split_ifs with h1 h2 h3 h4
  · rfl
  · rfl
  · rw [h4]
    rfl
  · rfl
  · have he : ((@unpackExponent .binary64 b).toNat : ℤ) - 1 + -1074
        = (@unpackExponent .binary64 b).toNat - 1075 := by omega
    rw [he]
    rfl

/-- The number that a double stands for has the double's parts. -/
theorem datum_eq (x : Float) : datum x = datumOf (unpacked x) := decode_eq x.toBits.toBitVec

end Double

end EndlessRemix
