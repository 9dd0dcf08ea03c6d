import EndlessRemix.Audio.Buffer
import EndlessRemix.Wave.Format

/-!
# Decoding a sound file

The last format chunk and the last data chunk count; other chunks are skipped. The samples of a
frame stand next to each other at the start of its block, and a block may be longer than its
samples. The data has as many frames as whole blocks.
-/

namespace EndlessRemix

/-- Where the samples of a file lie: `frames` blocks of `blockAlign` bytes from `start` on. -/
structure SampleGrid where
  encoding : SampleEncoding
  start : Nat
  blockAlign : Nat
  frames : Nat
  deriving Repr, DecidableEq

namespace SampleGrid

/-- The sample of a channel in a frame. -/
def read (g : SampleGrid) (file : Array UInt8) (channel frame : Nat) : Except WaveFault Sample :=
  (readWord file (g.start + frame * g.blockAlign + channel * g.encoding.width) g.encoding.width).map
    g.encoding.sample

/-- All samples of a channel. -/
def channel (g : SampleGrid) (file : Array UInt8) (channel : Nat) :
    Except WaveFault (Array Sample) :=
  ((List.range g.frames).mapM (g.read file channel)).map List.toArray

end SampleGrid

/-- The grid of the data in a file, if its format can be read. A block align of 0 stands for blocks
without gaps. -/
def WaveFormat.grid (f : WaveFormat) (data : ChunkPlace) : Except WaveFault SampleGrid := do
  if f.channels = 0 ∨ f.sampleRate = 0 then throw .zeroChannelsOrRate
  let some encoding := SampleEncoding.of? f.encoding f.bits | throw (.unsupported f.encoding f.bits)
  let frameBytes := encoding.width * f.channels
  let blockAlign := if f.blockAlign = 0 then frameBytes else f.blockAlign
  if blockAlign < frameBytes then throw (.smallBlock blockAlign f.channels)
  return { encoding, start := data.start, blockAlign, frames := data.length / blockAlign }

/-- The audio of a sound file. -/
def decodeWave {R : Type} [Scalar R] (file : Array UInt8) : Except WaveFault (SampleBuffer R) := do
  let places ← chunkPlaces file
  -- every format chunk is read, so one that is too short is a fault wherever it stands
  let formats ← (places.filter (·.tag = formatTag)).mapM (WaveFormat.read file)
  let some format := formats.getLast? | throw .noFormat
  let some data := lastPlace? dataTag places | throw .noData
  let grid ← format.grid data
  let channels ← (List.range format.channels).mapM (grid.channel file)
  return { sampleRate := Scalar.ofNat format.sampleRate, channels }

end EndlessRemix
