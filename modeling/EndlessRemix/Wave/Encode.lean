import EndlessRemix.Audio.Buffer
import EndlessRemix.Wave.Format

/-!
# Encoding a sound file

Audio is always written as two-byte integers. A sample is clamped to full scale; the negative side
has 32768 levels and the positive side 32767, and halfway between two levels is the upper one. What
is no number, or missing in a channel shorter than the first, is written as silence. Header fields
keep the low bits of what does not fit into them.
-/

namespace EndlessRemix

/-- A datum, with what lies beyond one replaced by one. -/
def Datum.clampToUnit : Datum → Datum
  | .finite negative mantissa exponent =>
    if Nat.pow 2 (-exponent).toNat ≤ mantissa * Nat.pow 2 exponent.toNat then .finite negative 1 0
    else .finite negative mantissa exponent
  | .infinite negative => .finite negative 1 0
  | .notANumber => .notANumber

/-- A datum times a natural. -/
def Datum.scale (factor : Nat) : Datum → Datum
  | .finite negative mantissa exponent => .finite negative (factor * mantissa) exponent
  | d => d

/-- The two-byte level of a number. -/
def Datum.level16 (d : Datum) : Int :=
  let clamped := d.clampToUnit
  -- the sign decides the number of levels; zero has level 0 on either side
  let scaled := match clamped with
    | .finite true _ _ => clamped.scale 32768
    | _ => clamped.scale 32767
  match scaled.round with
  | .int level => level
  | _ => 0

/-- The two-byte level of a sample. -/
def Sample.level16 (s : Sample) : Int := s.datum.level16

/-- A level as two bytes. -/
def levelBytes (level : Int) : List UInt8 := Word.toBytes 2 (level % 65536).toNat

/-- The bytes of a frame: a level for each channel. -/
def frameBytes (channels : List (Array Sample)) (frame : Nat) : List UInt8 :=
  channels.flatMap fun channel =>
    levelBytes (((channel[frame]?).map Sample.level16).getD 0)

section

variable {R : Type} [Scalar R]

/-- The format of what is written. -/
def SampleBuffer.waveFormat (b : SampleBuffer R) : WaveFormat where
  encoding := WaveFormat.integerEncoding
  channels := b.channels.length
  sampleRate := (Scalar.whole b.sampleRate).toWord 32
  blockAlign := 2 * b.channels.length
  bits := 16

/-- The bytes of a second. -/
def SampleBuffer.byteRate (b : SampleBuffer R) : Nat :=
  (Scalar.whole (b.sampleRate * Scalar.ofNat (2 * b.channels.length))).toWord 32

/-- The chunk of all frames. -/
def SampleBuffer.dataChunk (b : SampleBuffer R) : Chunk :=
  ⟨dataTag, (List.range b.frameCount).flatMap (frameBytes b.channels)⟩

/-- A buffer as a sound file. -/
def encodeWave (b : SampleBuffer R) : Array UInt8 :=
  (waveFile [⟨formatTag, b.waveFormat.body b.byteRate⟩, b.dataChunk]).toArray

end

end EndlessRemix
