/-!
# The bit-reversed order

A transform of `2 ^ k` values starts by putting each value at the position whose `k` binary digits
are those of its own position in reverse. The reversed positions are counted along: adding one to a
number adds to its reversal a carry that runs from the top bit down. Each pair is exchanged once,
when the lower of its two positions is passed.
-/

namespace EndlessRemix

/-- Adds `bit` to a reversed number: the carry runs down over the bits that are set. -/
def addReversed (bit reversed : Nat) : Nat :=
  if reversed &&& bit = 0 then reversed ^^^ bit
  else addReversed (bit / 2) (reversed ^^^ bit)
termination_by bit
decreasing_by
  rename_i carries
  have : bit ≠ 0 := fun zero => carries (by simp [zero])
  omega

/-- The reversal of the position after the one whose reversal is given, among `size` positions. -/
def nextReversed (size reversed : Nat) : Nat := addReversed (size / 2) reversed

/-- The exchange at position `i`, and the reversal of `i`, after those of the positions before. -/
def exchange {α : Type} (size : Nat) (state : Array α × Nat) (i : Nat) : Array α × Nat :=
  let reversed := nextReversed size state.2
  -- of two positions that are each other's reversal the lower one exchanges
  (if i < reversed then state.1.swapIfInBounds i reversed else state.1, reversed)

/-- The values in bit-reversed order. -/
def bitReversed {α : Type} (xs : Array α) : Array α :=
  ((List.range' 1 (xs.size - 1)).foldl (exchange xs.size) (xs, 0)).1

/-- The `bits` lowest binary digits of a number, in reverse. -/
def reverseBits : Nat → Nat → Nat
  | 0, _ => 0
  | bits + 1, n => n % 2 * Nat.pow 2 bits + reverseBits bits (n / 2)

end EndlessRemix
