import EndlessRemix.Audio.Sample
import EndlessRemix.Wave.Chunk

/-!
# How the samples of a file are written

The format chunk says how many channels there are, how many frames a second has, how many bytes a
frame takes and how a sample is written: as an integer of one to four bytes, which stands for its
fraction of full scale, or as a floating-point word of four or eight bytes.
-/

namespace EndlessRemix

/-- What the format chunk says. -/
structure WaveFormat where
  encoding : Nat
  channels : Nat
  sampleRate : Nat
  blockAlign : Nat
  bits : Nat
  deriving Repr, DecidableEq

namespace WaveFormat

/-- The encoding number of integer samples. -/
def integerEncoding : Nat := 1

/-- The encoding number of floating-point samples. -/
def floatEncoding : Nat := 3

/-- The encoding number that refers to a longer format chunk for the real one. -/
def extensibleEncoding : Nat := 0xfffe

/-- The format in a chunk of a file. An extensible chunk has the real encoding at byte 24, if it
reaches that far. -/
def read (file : Array UInt8) (place : ChunkPlace) : Except WaveFault WaveFormat := do
  if place.length < 16 then throw (.shortFormat place.length)
  let outer ← readWord file place.start 2
  let encoding ←
    if outer = extensibleEncoding ∧ 26 ≤ place.length then readWord file (place.start + 24) 2
    else pure outer
  return {
    encoding
    channels := ← readWord file (place.start + 2) 2
    sampleRate := ← readWord file (place.start + 4) 4
    -- the bytes per second, from byte 8 on, follow from the rest and are passed over
    blockAlign := ← readWord file (place.start + 12) 2
    bits := ← readWord file (place.start + 14) 2 }

/-- The body of a format chunk, with the given number of bytes per second. -/
def body (f : WaveFormat) (byteRate : Nat) : List UInt8 :=
  Word.toBytes 2 f.encoding ++ Word.toBytes 2 f.channels ++ Word.toBytes 4 f.sampleRate
    ++ Word.toBytes 4 byteRate ++ Word.toBytes 2 f.blockAlign ++ Word.toBytes 2 f.bits

end WaveFormat

/-- How one sample is written. -/
inductive SampleEncoding where
  /-- An integer of `width` bytes. -/
  | integer (width : Nat)
  /-- A single-precision number. -/
  | single
  /-- A double-precision number. -/
  | double
  deriving Repr, DecidableEq

namespace SampleEncoding

/-- The encoding with an encoding number and a number of bits. -/
def of? (encoding bits : Nat) : Option SampleEncoding :=
  if encoding = WaveFormat.integerEncoding ∧ (bits = 8 ∨ bits = 16 ∨ bits = 24 ∨ bits = 32) then
    some (.integer (bits / 8))
  else if encoding = WaveFormat.floatEncoding ∧ bits = 32 then some .single
  else if encoding = WaveFormat.floatEncoding ∧ bits = 64 then some .double
  else none

/-- The number of bytes of a sample. -/
def width : SampleEncoding → Nat
  | integer width => width
  | single => 4
  | double => 8

/-- The integer that a word of `width` bytes stands for. One byte counts from 128, wider words are
in two's complement. -/
def level (width word : Nat) : Int :=
  if width = 1 then word - 128 else Word.signed width word

/-- An integer as a fraction of full scale, which is `2 ^ (8 · width - 1)`. -/
def fraction (width : Nat) (level : Int) : Datum :=
  .finite (level < 0) level.natAbs (1 - 8 * width)

/-- The sample that a word stands for. -/
def sample : SampleEncoding → Nat → Sample
  | integer width, word => .ofDatum (fraction width (level width word))
  | single, word => ⟨word.toUInt32⟩
  | double, word => .ofDatum (WordFormat.double.decode word)

end SampleEncoding

end EndlessRemix
