import EndlessRemix.Number.Double

/-!
# `Sample`: one audio sample

A sample is kept as the 32 bits of a single-precision number, so that copying it is exact whatever
the bits stand for. Reading it as a number is exact; storing a number rounds to nearest, a tie to
the even mantissa.
-/

namespace EndlessRemix

/-- A stored sample. -/
structure Sample where
  bits : UInt32
  deriving DecidableEq, Repr

namespace Sample

/-- The silent sample. -/
def zero : Sample := ⟨0⟩

instance : Inhabited Sample := ⟨zero⟩

/-- The number that a sample stands for. -/
def datum (s : Sample) : Datum := WordFormat.single.decode s.bits.toNat

/-- The sample nearest to a datum. -/
def ofDatum (d : Datum) : Sample := ⟨(WordFormat.single.encode d).toUInt32⟩

/-- The sample's value in double precision, which holds it exactly. -/
def toFloat (s : Sample) : Float := Double.ofDatum s.datum

/-- A double stored as a sample. -/
def ofFloat (x : Float) : Sample := ofDatum (Double.datum x)

/-- The bits of a sample, with one word for everything that is not a number. -/
def canonicalBits (s : Sample) : UInt32 :=
  match s.datum with
  | .notANumber => (ofDatum .notANumber).bits
  | _ => s.bits

end Sample

end EndlessRemix
