/-!
# `Datum`: what a binary floating-point word stands for

A word of an interchange format is a sign, a field of exponent bits and a field of fraction bits.
`WordFormat.decode` reads the number `± mantissa · 2 ^ exponent` out of a word exactly, and
`WordFormat.encode` writes the word nearest to such a number, a tie going to the even mantissa.
Everything here is arithmetic on `Nat` and `Int`, so it evaluates inside the logic. Powers are
written `Nat.pow`, which is the same function whatever else is imported.
-/

namespace EndlessRemix

/-- A number of the form `± mantissa · 2 ^ exponent`, an infinity, or no number at all. -/
inductive Datum where
  | finite (negative : Bool) (mantissa : Nat) (exponent : Int)
  | infinite (negative : Bool)
  | notANumber
  deriving Repr, DecidableEq

/-- The widths of the two fields below the sign bit. -/
structure WordFormat where
  fractionBits : Nat
  exponentBits : Nat
  deriving Repr, DecidableEq

namespace WordFormat

/-- Eight bytes: the precision of every computed number. -/
def double : WordFormat := ⟨52, 11⟩

/-- Four bytes: the precision of a stored audio sample. -/
def single : WordFormat := ⟨23, 8⟩

/-- The exponent field that marks an infinity or no number. -/
def topField (f : WordFormat) : Nat := Nat.pow 2 f.exponentBits - 1

/-- The exponent of the last place of the smallest numbers of the format. -/
def leastExponent (f : WordFormat) : Int :=
  2 - Nat.pow 2 (f.exponentBits - 1) - f.fractionBits

/-- The number that the low bits of `word` stand for. -/
def decode (f : WordFormat) (word : Nat) : Datum :=
  let fraction := word % Nat.pow 2 f.fractionBits
  let field := word / Nat.pow 2 f.fractionBits % Nat.pow 2 f.exponentBits
  let negative := word / Nat.pow 2 (f.fractionBits + f.exponentBits) % 2 == 1
  if field = f.topField then
    if fraction = 0 then .infinite negative else .notANumber
  else if field = 0 then
    -- the numbers next to zero have no leading bit beside the fraction
    .finite negative fraction f.leastExponent
  else
    .finite negative (Nat.pow 2 f.fractionBits + fraction) (field - 1 + f.leastExponent)

/-- `num / den` rounded to the nearest natural, a tie to the even one. -/
def divNearestEven (num den : Nat) : Nat :=
  let quotient := num / den
  let twice := 2 * (num % den)
  if twice > den ∨ (twice = den ∧ quotient % 2 = 1) then quotient + 1 else quotient

/-- The word of `mantissa · 2 ^ exponent` below the sign bit. Counting in units of the last place
makes the exponent field and the carry out of the fraction come out by addition alone. -/
def encodeMagnitude (f : WordFormat) (mantissa : Nat) (exponent : Int) : Nat :=
  -- the last place follows the leading bit down, but not below the least exponent
  let lastPlace := max (mantissa.log2 + exponent - f.fractionBits) f.leastExponent
  let units :=
    if lastPlace ≤ exponent then mantissa * Nat.pow 2 (exponent - lastPlace).toNat
    else divNearestEven mantissa (Nat.pow 2 (lastPlace - exponent).toNat)
  -- the leading bit, or a carry out of the fraction, adds one to the exponent field
  let word := (lastPlace - f.leastExponent).toNat * Nat.pow 2 f.fractionBits + units
  -- beyond the largest number lies infinity
  min word (f.topField * Nat.pow 2 f.fractionBits)

/-- The word nearest to a datum; what is not a number has the word with the top fraction bit. -/
def encode (f : WordFormat) : Datum → Nat
  | .notANumber => f.topField * Nat.pow 2 f.fractionBits + Nat.pow 2 (f.fractionBits - 1)
  | .infinite negative => signed negative (f.topField * Nat.pow 2 f.fractionBits)
  | .finite negative mantissa exponent =>
    signed negative (if mantissa = 0 then 0 else f.encodeMagnitude mantissa exponent)
where
  signed (negative : Bool) (magnitude : Nat) : Nat :=
    if negative then Nat.pow 2 (f.fractionBits + f.exponentBits) + magnitude else magnitude

end WordFormat

namespace Datum

/-- The negated datum. -/
def neg : Datum → Datum
  | .finite negative mantissa exponent => .finite (!negative) mantissa exponent
  | .infinite negative => .infinite (!negative)
  | .notANumber => .notANumber

/-- The mantissa with its sign. -/
def signedMantissa (negative : Bool) (mantissa : Nat) : Int :=
  if negative then -mantissa else mantissa

end Datum

end EndlessRemix
