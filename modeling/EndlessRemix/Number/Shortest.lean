import EndlessRemix.Number.Datum

/-!
# The shortest decimal that reads back

Every double is written with the fewest decimal digits that no other double is nearer to. The
numbers that round to `m · 2 ^ e` form an interval around it, ends included exactly when `m` is
even. For one digit, two digits and so on, the two neighbours of the number on the grid of that
many digits are held against the interval: the first grid with a neighbour inside gives the digits,
of two neighbours the nearer one, at a tie the even one. All comparisons are between naturals.
-/

namespace EndlessRemix

/-- The number `digits · 10 ^ exponent`. -/
structure Decimal where
  digits : Nat
  exponent : Int
  deriving Repr, DecidableEq

namespace Decimal

/-- How many decimal digits a natural has. -/
def width (n : Nat) : Nat := (Nat.toDigits 10 n).length

/-- Trailing zeros moved from the digits into the exponent. -/
def normalize : Nat → Decimal → Decimal
  | 0, d => d
  | fuel + 1, d =>
    if d.digits ≠ 0 ∧ d.digits % 10 = 0 then normalize fuel ⟨d.digits / 10, d.exponent + 1⟩ else d

/-- The position of the decimal point: the least `p` with `num / den < 10 ^ p`. -/
def pointOf (num den : Nat) : Int :=
  if den ≤ num then width (num / den) else 1 - (width ((den - 1) / num) : Int)

/-- The reals that round to a double, as `low / unit` to `high / unit` with its own value at
`middle / unit`. -/
structure Interval where
  low : Nat
  middle : Nat
  high : Nat
  unit : Nat
  closed : Bool

/-- The interval of `mantissa · 2 ^ exponent`: halfway to each neighbour. Below a power of two the
neighbour is only half as far away. -/
def Interval.ofDouble (mantissa : Nat) (exponent : Int) : Interval :=
  let scale := Nat.pow 2 exponent.toNat
  -- a power of two, above the numbers that share the least exponent
  let narrow := mantissa = Nat.pow 2 WordFormat.double.fractionBits
    ∧ WordFormat.double.leastExponent < exponent
  -- all four fields count quarters of the last place
  { low := (4 * mantissa - (if narrow then 1 else 2)) * scale
    middle := 4 * mantissa * scale
    high := (4 * mantissa + 2) * scale
    unit := 4 * Nat.pow 2 (-exponent).toNat
    closed := mantissa % 2 = 0 }

namespace Interval

/-- A decimal lies in the interval. -/
def holds (i : Interval) (d : Decimal) : Bool :=
  let point := d.digits * Nat.pow 10 d.exponent.toNat * i.unit
  let scale := Nat.pow 10 (-d.exponent).toNat
  if i.closed then i.low * scale ≤ point ∧ point ≤ i.high * scale
  else i.low * scale < point ∧ point < i.high * scale

/-- The two neighbours of the middle on the grid of multiples of `10 ^ exponent`, and whether the
upper one is preferred. -/
def neighbours (i : Interval) (exponent : Int) : Decimal × Decimal × Bool :=
  let num := i.middle * Nat.pow 10 (-exponent).toNat
  let den := i.unit * Nat.pow 10 exponent.toNat
  let below := num / den
  let twice := 2 * (num % den)
  (⟨below, exponent⟩, ⟨below + 1, exponent⟩, twice > den ∨ (twice = den ∧ below % 2 = 1))

/-- The first grid, from `exponent` downwards, with a neighbour inside; after `fuel` finer grids the
nearer neighbour is taken as it is. -/
def search (i : Interval) : Nat → Int → Decimal
  | 0, exponent =>
    let (below, above, up) := i.neighbours exponent
    if up then above else below
  | fuel + 1, exponent =>
    let (below, above, up) := i.neighbours exponent
    let near := if up then above else below
    let far := if up then below else above
    if i.holds near then near
    else if i.holds far then far
    else i.search fuel (exponent - 1)

end Interval

/-- The shortest decimal that reads back as the double `mantissa · 2 ^ exponent`, for a positive
mantissa. Seventeen digits always suffice. -/
def shortest (mantissa : Nat) (exponent : Int) : Decimal :=
  let i := Interval.ofDouble mantissa exponent
  -- the first grid has one digit, and a neighbour may still end in zeros
  normalize 17 (i.search 16 (pointOf i.middle i.unit - 1))

end Decimal

end EndlessRemix
