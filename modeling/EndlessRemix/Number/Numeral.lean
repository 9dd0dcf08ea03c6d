import EndlessRemix.Number.Double

/-!
# Reading a number

The numerals that option values accept: blanks around the number are ignored; a decimal numeral
has an optional sign, digits with an optional point on either side of which digits may be missing
(not on both), and an optional exponent; a numeral in base 16, 8 or 2 has its two-character mark
and no sign. `Numeral.read?` gives the nearest double.
-/

namespace EndlessRemix.Numeral

/-- The characters that count as blank around a number: the space characters of every script, the
line and paragraph ends, and the byte order mark. -/
def isBlank (c : Char) : Bool :=
  let n := c.toNat
  (9 ≤ n && n ≤ 13) || n == 0x20 || n == 0xA0 || n == 0x1680 || (0x2000 ≤ n && n ≤ 0x200A)
    || n == 0x2028 || n == 0x2029 || n == 0x202F || n == 0x205F || n == 0x3000 || n == 0xFEFF

/-- A text without the blanks at both ends. -/
def trim (cs : List Char) : List Char :=
  ((cs.dropWhile isBlank).reverse.dropWhile isBlank).reverse

/-- The value of a digit in bases up to sixteen. -/
def digit? (base : Nat) (c : Char) : Option Nat :=
  let value :=
    if '0' ≤ c ∧ c ≤ '9' then c.toNat - '0'.toNat
    else if 'a' ≤ c ∧ c ≤ 'f' then c.toNat - 'a'.toNat + 10
    else if 'A' ≤ c ∧ c ≤ 'F' then c.toNat - 'A'.toNat + 10
    else base
  if value < base then some value else none

/-- The digits at the front of a text, and the rest. -/
def digits (base : Nat) : List Char → List Nat × List Char
  | [] => ([], [])
  | c :: cs =>
    match digit? base c with
    | some d => let (ds, rest) := digits base cs; (d :: ds, rest)
    | none => ([], c :: cs)

/-- The value of digits, the most significant first. -/
def value (base : Nat) (ds : List Nat) : Nat := ds.foldl (fun n d => n * base + d) 0

/-- The whole text as one natural in the given base; at least one digit is needed. -/
def natural? (base : Nat) (cs : List Char) : Option Nat :=
  match digits base cs with
  | (d :: ds, []) => some (value base (d :: ds))
  | _ => none

/-- A sign at the front of a text, true for minus, and the rest. -/
def sign : List Char → Bool × List Char
  | '-' :: cs => (true, cs)
  | '+' :: cs => (false, cs)
  | cs => (false, cs)

/-- The exponent at the end of a decimal numeral; a missing one is 0. -/
def exponent? : List Char → Option Int
  | [] => some 0
  | c :: cs =>
    if c = 'e' ∨ c = 'E' then
      let (negative, cs) := sign cs
      (natural? 10 cs).map fun n => if negative then -n else n
    else none

/-- The double nearest to `mantissa · 10 ^ exponent`. Beyond four hundred digits on either side of
the point the answer is infinite or zero without computing the power. -/
def scaled (mantissa : Nat) (exponent : Int) : Float :=
  let point := (Nat.toDigits 10 mantissa).length + exponent
  if mantissa = 0 ∨ point < -400 then 0
  else if 400 < point then Double.ofDatum (.infinite false)
  else Float.ofScientific mantissa (decide (exponent < 0)) exponent.natAbs

/-- A decimal numeral after its sign. -/
def unsigned? (cs : List Char) : Option Float :=
  if cs = "Infinity".toList then some (Double.ofDatum (.infinite false))
  else
    let (before, rest) := digits 10 cs
    let (after, rest) := match rest with
      | '.' :: rest => digits 10 rest
      | rest => ([], rest)
    if before.isEmpty && after.isEmpty then none
    else (exponent? rest).map fun e => scaled (value 10 (before ++ after)) (e - after.length)

/-- The number that a text without surrounding blanks denotes. -/
def number? : List Char → Option Float
  | '0' :: 'x' :: cs | '0' :: 'X' :: cs => (natural? 16 cs).map Float.ofNat
  | '0' :: 'o' :: cs | '0' :: 'O' :: cs => (natural? 8 cs).map Float.ofNat
  | '0' :: 'b' :: cs | '0' :: 'B' :: cs => (natural? 2 cs).map Float.ofNat
  -- only a decimal numeral may have a sign
  | cs =>
    let (negative, cs) := sign cs
    (unsigned? cs).map fun x => if negative then -x else x

/-- The finite number that a text denotes, if it denotes one. -/
def read? (text : String) : Option Float :=
  (number? (trim text.toList)).filter Float.isFinite

end EndlessRemix.Numeral
