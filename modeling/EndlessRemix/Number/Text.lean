import EndlessRemix.Number.Double
import EndlessRemix.Number.Shortest

/-!
# The text of a number

Messages and log lines show numbers with the fewest digits that read back, written positionally
inside a range of magnitudes and with an exponent outside it.
-/

namespace EndlessRemix

/-- Where positional notation ends: a number with its decimal point at position `p` (it is below
`10 ^ p`) is written positionally when `lowest < p` and `p ≤ highest`. -/
structure NumberStyle where
  lowest : Int
  highest : Int
  infinity : String
  noNumber : String

/-- Numbers in messages are positional from one millionth up to below `10 ^ 21`. -/
def NumberStyle.message : NumberStyle := ⟨-6, 21, "Infinity", "NaN"⟩

namespace NumberStyle

/-- A positive decimal laid out. The sign of an exponent is always written. -/
def layout (n : NumberStyle) (d : Decimal) : String :=
  let digits := Nat.toDigits 10 d.digits
  let point : Int := digits.length + d.exponent
  if n.lowest < point ∧ point ≤ n.highest then
    if point ≤ 0 then
      -- all digits stand behind the point
      String.ofList ('0' :: '.' :: List.replicate (-point).toNat '0' ++ digits)
    else if d.exponent ≥ 0 then
      -- all digits stand in front of it
      String.ofList (digits ++ List.replicate d.exponent.toNat '0')
    else
      String.ofList (digits.take point.toNat ++ '.' :: digits.drop point.toNat)
  else
    -- one digit stands in front of the point, if there is one
    let exponent := point - 1
    let fraction := match digits.drop 1 with
      | [] => []
      | rest => '.' :: rest
    String.ofList (digits.take 1 ++ fraction ++ 'e' :: (if exponent < 0 then '-' else '+')
      :: Nat.toDigits 10 exponent.natAbs)

/-- The text of a datum in double precision; neither zero shows a sign. -/
def text (n : NumberStyle) : Datum → String
  | .notANumber => n.noNumber
  | .infinite negative => (if negative then "-" else "") ++ n.infinity
  | .finite negative mantissa exponent =>
    if mantissa = 0 then "0"
    else (if negative then "-" else "") ++ n.layout (Decimal.shortest mantissa exponent)

end NumberStyle

/-- A number as messages show it. -/
def numberText (x : Float) : String := NumberStyle.message.text (Double.datum x)

end EndlessRemix
