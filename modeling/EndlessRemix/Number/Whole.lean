import EndlessRemix.Number.Datum

/-!
# `Whole`: whole numbers as a computation leaves them

Rounding a floating-point number gives an integer, or an infinity, or no number when there was
none. `Whole` holds these outcomes with exact integers, and the readings that frame counts, list
positions and machine words make of them. How many entries a list can have is up to the memory.
-/

namespace EndlessRemix

/-- A memory: the most samples that a list in it can have. A sample takes four bytes, and no block
of memory has `2 ^ 53` bytes. -/
class Memory where
  longest : Nat
  longest_lt : longest < Nat.pow 2 51

/-- The memory of a program that is not given another one: a list has up to 32 GiB. -/
instance Memory.standard : Memory := ⟨Nat.pow 2 33, by decide⟩

/-- An integer, an infinity, or no number. -/
inductive Whole where
  | int (value : Int)
  | posInf
  | negInf
  | nan
  deriving Repr, DecidableEq

namespace Whole

instance : Inhabited Whole := ⟨.int 0⟩

/-- A whole number as a datum. -/
def datum : Whole → Datum
  | .int value => .finite (value < 0) value.natAbs 0
  | .posInf => .infinite false
  | .negInf => .infinite true
  | .nan => .notANumber

/-- The value modulo `2 ^ bits`, as a machine word stores it; what is no integer is stored as 0. -/
def toWord (bits : Nat) : Whole → Nat
  | .int value => (value % Nat.pow 2 bits).toNat
  | _ => 0

/-- The natural number, or 0 for what is none. -/
def toNat : Whole → Nat
  | .int value => value.toNat
  | _ => 0

/-- The number of entries a list of this length has: none if the length is no number, and `none`
when no list in the memory can be that long. -/
def toLength? [Memory] : Whole → Option Nat
  | .int (.ofNat n) => if n ≤ Memory.longest then some n else none
  | .int (.negSucc _) => none
  | .nan => some 0
  | .posInf | .negInf => none

/-- An integer is a length from zero to the longest that the memory has room for. -/
theorem toLength?_int [Memory] (k : Int) :
    (int k).toLength? = if 0 ≤ k ∧ k ≤ Memory.longest then some k.toNat else none := by
  cases k with
  | ofNat n =>
    have hroom : (0 ≤ Int.ofNat n ∧ Int.ofNat n ≤ Memory.longest) ↔ n ≤ Memory.longest := by
      simp only [Int.ofNat_eq_natCast]
      omega
    simp only [toLength?, hroom]
    rfl
  | negSucc n =>
    have hnegative : ¬(0 ≤ Int.negSucc n ∧ Int.negSucc n ≤ Memory.longest) := by omega
    rw [if_neg hnegative]
    rfl

/-- The position in a list of `size` entries that a slice bound names: a negative bound counts from
the end, every bound is clamped to the list, and what is no number is the start. -/
def clampPosition (size : Nat) : Whole → Nat
  | .int (.ofNat n) => min n size
  | .int (.negSucc n) => size - (n + 1)
  | .posInf => size
  | .negInf | .nan => 0

end Whole

namespace Datum

/-- The integer at or below a datum. -/
def floor : Datum → Whole
  | .finite negative mantissa exponent =>
    let m := signedMantissa negative mantissa
    if 0 ≤ exponent then .int (m * Nat.pow 2 exponent.toNat)
    else .int (m.fdiv (Nat.pow 2 (-exponent).toNat))
  | .infinite negative => if negative then .negInf else .posInf
  | .notANumber => .nan

/-- The integer nearest to a datum; halfway between two, the upper one. -/
def round : Datum → Whole
  | .finite negative mantissa exponent =>
    let m := signedMantissa negative mantissa
    if 0 ≤ exponent then .int (m * Nat.pow 2 exponent.toNat)
    else
      let unit : Int := Nat.pow 2 (-exponent).toNat
      .int ((2 * m + unit).fdiv (2 * unit))
  | .infinite negative => if negative then .negInf else .posInf
  | .notANumber => .nan

/-- The integer next to a datum on the side of zero. -/
def truncate : Datum → Whole
  | .finite negative mantissa exponent =>
    let m := signedMantissa negative mantissa
    if 0 ≤ exponent then .int (m * Nat.pow 2 exponent.toNat)
    else .int (m.tdiv (Nat.pow 2 (-exponent).toNat))
  | .infinite negative => if negative then .negInf else .posInf
  | .notANumber => .nan

/-- The remainder of truncated division: the sign of the dividend, and a size below the divisor's.
A finite dividend is its own remainder by an infinite divisor. -/
def remainder : Datum → Datum → Datum
  | .finite negative m e, .finite _ m' e' =>
    if m' = 0 then .notANumber
    else
      let exponent := min e e'
      let scaled := m * Nat.pow 2 (e - exponent).toNat
      let divisor := m' * Nat.pow 2 (e' - exponent).toNat
      .finite negative (scaled % divisor) exponent
  | .finite negative m e, .infinite _ => .finite negative m e
  | _, _ => .notANumber

end Datum

end EndlessRemix
