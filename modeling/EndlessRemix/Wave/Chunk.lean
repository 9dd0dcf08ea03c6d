import EndlessRemix.ErrorKind
import EndlessRemix.Wave.Bytes

/-!
# Chunks of a sound file

A file is a twelve-byte header, with the mark `RIFF` in front and `WAVE` at the end, and a row of
chunks: four bytes that name it, four bytes that count the bytes of its body, the body, and a byte
of padding if the count is odd. `waveFile` writes such a file. `chunkPlaces` finds the chunks in any
bytes: a chunk that claims more bytes than there are has those that are there.

Every read is checked against the end of the file and reports a fault of its own beyond it, so that
"no read is out of bounds" can be said of a decoder as a fact about its faults.
-/

namespace EndlessRemix

/-- Why bytes cannot be decoded. -/
inductive WaveFault where
  | notWave
  | shortFormat (length : Nat)
  | noFormat
  | noData
  | zeroChannelsOrRate
  | unsupported (format bits : Nat)
  | smallBlock (blockAlign channels : Nat)
  | readBeyondEnd
  deriving Repr, DecidableEq

namespace WaveFault

/-- The sentence that reports the fault. -/
def message : WaveFault → String
  | notWave => "Not a RIFF/WAVE file"
  | shortFormat length => "fmt chunk too short (" ++ toString length ++ " bytes)"
  | noFormat => "WAV file has no fmt chunk"
  | noData => "WAV file has no data chunk"
  | zeroChannelsOrRate => "WAV header declares zero channels or a zero sample rate"
  | unsupported format bits =>
    "Unsupported WAV encoding: format " ++ toString format ++ ", " ++ toString bits ++ " bits"
  | smallBlock blockAlign channels =>
    "WAV block align " ++ toString blockAlign ++ " is too small for " ++ toString channels
      ++ " channels"
  | readBeyondEnd => "The file ends inside a word"

/-- What is wrong with a file is an input error; a read beyond its end would be no fault of the
file. -/
def kind? : WaveFault → Option ErrorKind
  | readBeyondEnd => none
  | _ => some .input

end WaveFault

/-! ## Marks -/

/-- The mark at the start of a file. -/
def riffTag : List UInt8 := [0x52, 0x49, 0x46, 0x46]

/-- The mark at the end of a file's header. -/
def waveTag : List UInt8 := [0x57, 0x41, 0x56, 0x45]

/-- The name of the chunk that describes the samples. -/
def formatTag : List UInt8 := [0x66, 0x6d, 0x74, 0x20]

/-- The name of the chunk that holds the samples. -/
def dataTag : List UInt8 := [0x64, 0x61, 0x74, 0x61]

/-! ## Writing -/

/-- A chunk by itself. -/
structure Chunk where
  tag : List UInt8
  body : List UInt8
  deriving Repr, DecidableEq

/-- A chunk as it stands in a file. -/
def Chunk.bytes (c : Chunk) : List UInt8 :=
  c.tag ++ Word.toBytes 4 c.body.length ++ c.body ++ List.replicate (c.body.length % 2) 0

/-- The bytes of chunks in a row. -/
def chunkBytes (chunks : List Chunk) : List UInt8 := chunks.flatMap Chunk.bytes

/-- A file with these chunks, whatever its header says about its size. -/
def waveFileSized (size : Nat) (chunks : List Chunk) : List UInt8 :=
  riffTag ++ Word.toBytes 4 size ++ waveTag ++ chunkBytes chunks

/-- A file with these chunks. Its header counts the bytes after the count. -/
def waveFile (chunks : List Chunk) : List UInt8 :=
  waveFileSized (4 + (chunkBytes chunks).length) chunks

/-! ## Reading -/

/-- Consecutive bytes of a file. -/
def readBytes (file : Array UInt8) (offset count : Nat) : Except WaveFault (List UInt8) :=
  if offset + count ≤ file.size then .ok (file.extract offset (offset + count)).toList
  else .error .readBeyondEnd

/-- A word of a file. -/
def readWord (file : Array UInt8) (offset width : Nat) : Except WaveFault Nat :=
  (readBytes file offset width).map Word.ofBytes

/-- Where a chunk's body lies in a file, as far as the file has it. -/
structure ChunkPlace where
  tag : List UInt8
  start : Nat
  length : Nat
  deriving Repr, DecidableEq

/-- The chunks from an offset on. Fewer than eight bytes at the end are no chunk. -/
def chunkPlacesFrom (file : Array UInt8) (offset : Nat) : Except WaveFault (List ChunkPlace) := do
  if offset + 8 ≤ file.size then
    let tag ← readBytes file offset 4
    let size ← readWord file (offset + 4) 4
    let start := offset + 8
    -- the claimed size decides where the next chunk is, whether or not the file reaches that far
    let rest ← chunkPlacesFrom file (start + size + size % 2)
    return ⟨tag, start, min size (file.size - start)⟩ :: rest
  else return []
termination_by file.size - offset

/-- The chunks of a file that has the header's two marks. -/
def chunkPlaces (file : Array UInt8) : Except WaveFault (List ChunkPlace) := do
  if file.size < 12 then throw .notWave
  let riff ← readBytes file 0 4
  let wave ← readBytes file 8 4
  -- the size between the two marks is not looked at
  if riff ≠ riffTag ∨ wave ≠ waveTag then throw .notWave
  chunkPlacesFrom file 12

/-- The last of the chunks with a name. -/
def lastPlace? (tag : List UInt8) (places : List ChunkPlace) : Option ChunkPlace :=
  (places.filter (·.tag = tag)).getLast?

end EndlessRemix
