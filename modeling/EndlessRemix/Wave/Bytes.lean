/-!
# Little-endian words

`Word.toBytes` writes a natural as a given number of bytes, the least significant first, and drops
what does not fit; `Word.ofBytes` reads bytes back.
-/

namespace EndlessRemix.Word

/-- The lowest `width` bytes of a natural, the least significant first. -/
def toBytes : Nat → Nat → List UInt8
  | 0, _ => []
  | width + 1, n => UInt8.ofNat (n % 256) :: toBytes width (n / 256)

/-- The natural that bytes stand for, the least significant first. -/
def ofBytes : List UInt8 → Nat
  | [] => 0
  | b :: bs => b.toNat + 256 * ofBytes bs

/-- The integer that a word of `width` bytes stands for in two's complement. -/
def signed (width : Nat) (word : Nat) : Int :=
  if 2 * word < Nat.pow 256 width then word else word - Nat.pow 256 width

@[simp] theorem length_toBytes (width n : Nat) : (toBytes width n).length = width := by
  induction width generalizing n with
  | zero => rfl
  | succ width ih => simp only [toBytes, List.length_cons, ih]

/-- Reading what was written gives the natural back, less what did not fit. -/
theorem ofBytes_toBytes (width n : Nat) : ofBytes (toBytes width n) = n % Nat.pow 256 width := by
  induction width generalizing n with
  | zero => simp only [toBytes, ofBytes, Nat.pow_eq, Nat.pow_zero, Nat.mod_one]
  | succ width ih =>
    have byte : (UInt8.ofNat (n % 256)).toNat = n % 256 := by
      rw [UInt8.toNat_ofNat']; omega
    rw [toBytes, ofBytes, ih, byte, Nat.pow_eq, Nat.pow_eq, Nat.pow_succ', Nat.mod_mul]

end EndlessRemix.Word
