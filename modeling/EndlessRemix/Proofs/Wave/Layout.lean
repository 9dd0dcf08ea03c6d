import EndlessRemix.Proofs.Wave.Reading
import EndlessRemix.Wave.Encode

/-!
# The layout of written files

`BytesAt` says that bytes stand at an offset of a file. What stands there can be taken apart like
the bytes themselves, and every reading of the decoder gives back what was written where it reads:
words, chunks one after another, the format, and a sample for each channel of each frame.
-/

namespace EndlessRemix

/-! ## Bytes at an offset -/

/-- These bytes stand in the file from an offset on. -/
def BytesAt (file : Array UInt8) (offset : ℕ) (bytes : List UInt8) : Prop :=
  ∃ pre post, file.toList = pre ++ bytes ++ post ∧ pre.length = offset

lemma bytesAt_toArray (bytes : List UInt8) : BytesAt bytes.toArray 0 bytes :=
  ⟨[], [], by simp, rfl⟩

namespace BytesAt

variable {file : Array UInt8} {offset : ℕ} {bytes more : List UInt8}

lemma left (h : BytesAt file offset (bytes ++ more)) : BytesAt file offset bytes := by
  obtain ⟨pre, post, hfile, hpre⟩ := h
  exact ⟨pre, more ++ post, by rw [hfile]; simp, hpre⟩

lemma right (h : BytesAt file offset (bytes ++ more)) :
    BytesAt file (offset + bytes.length) more := by
  obtain ⟨pre, post, hfile, hpre⟩ := h
  exact ⟨pre ++ bytes, post, by rw [hfile]; simp, by rw [List.length_append, hpre]⟩

lemma le_size (h : BytesAt file offset bytes) : offset + bytes.length ≤ file.size := by
  obtain ⟨pre, post, hfile, rfl⟩ := h
  rw [← Array.length_toList, hfile, List.length_append, List.length_append]
  omega

/-- The bytes of the entries of a list stand one after another. -/
lemma flatMap {α : Type} {xs : List α} {f : α → List UInt8} {width : ℕ}
    (h : BytesAt file offset (xs.flatMap f)) (hf : ∀ x ∈ xs, (f x).length = width) {i : ℕ} {x : α}
    (hx : xs[i]? = some x) : BytesAt file (offset + i * width) (f x) := by
  induction xs generalizing offset i with
  | nil => cases hx
  | cons y ys ih =>
    rw [List.flatMap_cons] at h
    cases i with
    | zero =>
      obtain rfl : y = x := Option.some.inj hx
      rw [Nat.zero_mul]
      exact h.left
    | succ i =>
      have hrest := ih h.right (fun z hz => hf z (List.mem_cons_of_mem y hz)) hx
      rw [hf y List.mem_cons_self] at hrest
      rwa [Nat.succ_mul, Nat.add_comm (i * width), ← Nat.add_assoc]

lemma readBytes_eq (h : BytesAt file offset bytes) {count : ℕ} (hcount : bytes.length = count) :
    readBytes file offset count = .ok bytes := by
  subst hcount
  rw [readBytes, if_pos h.le_size]
  obtain ⟨pre, post, hfile, rfl⟩ := h
  rw [Array.toList_extract, hfile]
  congr 1
  simp [List.extract_eq_take_drop]

/-- A word is read as it was written, less what did not fit. -/
lemma readWord_mod {width n : ℕ} (h : BytesAt file offset (Word.toBytes width n)) :
    readWord file offset width = .ok (n % 256 ^ width) := by
  rw [readWord, h.readBytes_eq (Word.length_toBytes width n)]
  show Except.ok (Word.ofBytes (Word.toBytes width n)) = _
  rw [Word.ofBytes_toBytes, Nat.pow_eq]

/-- A word is read as it was written, if it has enough bytes. -/
lemma readWord_eq {width n : ℕ} (h : BytesAt file offset (Word.toBytes width n))
    (hn : n < 256 ^ width) : readWord file offset width = .ok n := by
  rw [h.readWord_mod, Nat.mod_eq_of_lt hn]

end BytesAt

/-- Bytes before a cut stand where they stood. -/
lemma BytesAt.extract {file : Array UInt8} {offset m : ℕ} {bytes : List UInt8}
    (h : BytesAt file offset bytes) (hm : offset + bytes.length ≤ m) :
    BytesAt (file.extract 0 m) offset bytes := by
  obtain ⟨pre, post, hfile, rfl⟩ := h
  refine ⟨pre, post.take (m - (pre.length + bytes.length)), ?_, rfl⟩
  rw [Array.toList_extract, List.extract_eq_take_drop, List.drop_zero, Nat.sub_zero, hfile,
    List.take_append, List.length_append, List.take_of_length_le]
  rwa [List.length_append]

/-! ## Chunks -/

/-- A chunk can be written: its name has four bytes, and so has the count of its bytes. -/
structure Chunk.Writable (c : Chunk) : Prop where
  tag : c.tag.length = 4
  body : c.body.length < 2 ^ 32

lemma Chunk.length_bytes {c : Chunk} (h : c.tag.length = 4) :
    c.bytes.length = 8 + c.body.length + c.body.length % 2 := by
  simp [Chunk.bytes, h]
  omega

/-- Where chunks lie that are written from an offset on. -/
def placesOf : ℕ → List Chunk → List ChunkPlace
  | _, [] => []
  | offset, c :: chunks =>
    ⟨c.tag, offset + 8, c.body.length⟩ :: placesOf (offset + c.bytes.length) chunks

/-- A chunk as it stands in a file that pads with this byte. -/
def Chunk.padded (c : Chunk) (pad : UInt8) : List UInt8 :=
  c.tag ++ Word.toBytes 4 c.body.length ++ c.body ++ List.replicate (c.body.length % 2) pad

lemma Chunk.length_padded (c : Chunk) (pad : UInt8) : (c.padded pad).length = c.bytes.length := by
  simp [Chunk.padded, Chunk.bytes]

/-- These bytes are chunks in a row, each padded with some byte if its count is odd. -/
inductive ChunkRow : List Chunk → List UInt8 → Prop where
  | nil : ChunkRow [] []
  | cons {c : Chunk} {chunks : List Chunk} {bytes : List UInt8} (pad : UInt8)
      (rest : ChunkRow chunks bytes) : ChunkRow (c :: chunks) (c.padded pad ++ bytes)

lemma chunkRow_chunkBytes (chunks : List Chunk) : ChunkRow chunks (chunkBytes chunks) := by
  induction chunks with
  | nil => exact .nil
  | cons c chunks ih => exact .cons 0 ih

/-- A file of these bytes behind the header, whatever that says about its size. -/
def riffFile (size : ℕ) (bytes : List UInt8) : List UInt8 :=
  riffTag ++ Word.toBytes 4 size ++ waveTag ++ bytes

lemma length_riffFile (size : ℕ) (bytes : List UInt8) :
    (riffFile size bytes).length = 12 + bytes.length := by
  simp [riffFile, riffTag, waveTag]
  omega

/-- A file that ends before the head of a chunk does has no more chunks. -/
lemma chunkPlacesFrom_end {file : Array UInt8} {offset : ℕ} (h : file.size < offset + 8) :
    chunkPlacesFrom file offset = .ok [] := by
  rw [chunkPlacesFrom, if_neg (by omega)]
  rfl

/-- A chunk is found where its head stands, with as much of its body as the file has. -/
lemma chunkPlacesFrom_cons {file : Array UInt8} {offset size next : ℕ} {tag : List UInt8}
    {places : List ChunkPlace} (htag : tag.length = 4) (hsize : size < 2 ^ 32)
    (h : BytesAt file offset (tag ++ Word.toBytes 4 size))
    (hnext : offset + 8 + size + size % 2 = next) (hrest : chunkPlacesFrom file next = .ok places) :
    chunkPlacesFrom file offset
      = .ok (⟨tag, offset + 8, min size (file.size - (offset + 8))⟩ :: places) := by
  have hend := h.le_size
  have hname := h.left.readBytes_eq htag
  have hcount := h.right.readWord_eq (lt_of_lt_of_eq hsize (by norm_num))
  rw [List.length_append, htag, Word.length_toBytes] at hend
  rw [htag] at hcount
  rw [chunkPlacesFrom, if_pos (by omega), hname, hcount]
  show (chunkPlacesFrom file (offset + 8 + size + size % 2) >>= fun rest =>
    pure (⟨tag, offset + 8, min size (file.size - (offset + 8))⟩ :: rest)) = _
  rw [hnext, hrest]
  rfl

/-- Chunks at the end of a file are found where they stand, whatever they are padded with. -/
theorem chunkPlacesFrom_eq {file : Array UInt8} {offset : ℕ} {chunks : List Chunk}
    {bytes : List UInt8} (hrow : ChunkRow chunks bytes) (hchunks : ∀ c ∈ chunks, c.Writable)
    (h : BytesAt file offset bytes) (hend : offset + bytes.length = file.size) :
    chunkPlacesFrom file offset = .ok (placesOf offset chunks) := by
  induction hrow generalizing offset with
  | nil =>
    have hsize : offset = file.size := hend
    exact chunkPlacesFrom_end (by omega)
  | @cons c chunks bytes pad rest ih =>
    have hc := hchunks c List.mem_cons_self
    have hlength := c.length_bytes hc.tag
    have hpadded := c.length_padded pad
    rw [List.length_append] at hend
    have hhead : BytesAt file offset (c.tag ++ Word.toBytes 4 c.body.length) := h.left.left.left
    have hrest := ih (fun d hd => hchunks d (List.mem_cons_of_mem c hd)) h.right (by omega)
    rw [hpadded] at hrest
    have hnext : offset + 8 + c.body.length + c.body.length % 2 = offset + c.bytes.length := by omega
    have hmin : min c.body.length (file.size - (offset + 8)) = c.body.length := by omega
    rw [chunkPlacesFrom_cons hc.tag hc.body hhead hnext hrest, hmin]
    rfl

/-- A file with the marks of the header has the chunks behind it. -/
lemma chunkPlaces_of_marks {file : Array UInt8} {size : ℕ}
    (h : BytesAt file 0 (riffTag ++ Word.toBytes 4 size ++ waveTag)) :
    chunkPlaces file = chunkPlacesFrom file 12 := by
  have hend := h.le_size
  rw [List.length_append, List.length_append, Word.length_toBytes] at hend
  have hlength : ¬file.size < 12 := not_lt.mpr hend
  have hriff : readBytes file 0 4 = .ok riffTag := h.left.left.readBytes_eq rfl
  have hwave : readBytes file 8 4 = .ok waveTag := h.right.readBytes_eq rfl
  rw [chunkPlaces, if_neg hlength, hriff, hwave]
  rfl

/-- The chunks of a file are found where they stand, whatever its header says about its size. -/
theorem chunkPlaces_riffFile (size : ℕ) {chunks : List Chunk} {bytes : List UInt8}
    (hrow : ChunkRow chunks bytes) (hchunks : ∀ c ∈ chunks, c.Writable) :
    chunkPlaces (riffFile size bytes).toArray = .ok (placesOf 12 chunks) := by
  have h : BytesAt (riffFile size bytes).toArray 0
      (riffTag ++ Word.toBytes 4 size ++ waveTag ++ bytes) := bytesAt_toArray _
  have hlength := length_riffFile size bytes
  rw [chunkPlaces_of_marks h.left]
  exact chunkPlacesFrom_eq hrow hchunks h.right (by rw [List.size_toArray, hlength])

/-- The chunks of a file are found where they were written. -/
theorem chunkPlaces_eq (size : ℕ) {chunks : List Chunk} (hchunks : ∀ c ∈ chunks, c.Writable) :
    chunkPlaces (waveFileSized size chunks).toArray = .ok (placesOf 12 chunks) :=
  chunkPlaces_riffFile size (chunkRow_chunkBytes chunks) hchunks

/-! ## The format -/

/-- A format can be written in a chunk without an extension: every field has room, and the encoding
does not refer to an extension. -/
structure WaveFormat.Plain (f : WaveFormat) : Prop where
  encoding : f.encoding < 2 ^ 16
  encoding_ne : f.encoding ≠ WaveFormat.extensibleEncoding
  channels : f.channels < 2 ^ 16
  sampleRate : f.sampleRate < 2 ^ 32
  blockAlign : f.blockAlign < 2 ^ 16
  bits : f.bits < 2 ^ 16

lemma WaveFormat.length_body (f : WaveFormat) (byteRate : ℕ) : (f.body byteRate).length = 16 := by
  simp [WaveFormat.body]

/-- What a format becomes when it is written: every field keeps what fits into it. -/
def WaveFormat.stored (f : WaveFormat) : WaveFormat where
  encoding := f.encoding % 2 ^ 16
  channels := f.channels % 2 ^ 16
  sampleRate := f.sampleRate % 2 ^ 32
  blockAlign := f.blockAlign % 2 ^ 16
  bits := f.bits % 2 ^ 16

lemma WaveFormat.Plain.stored_eq {f : WaveFormat} (hf : f.Plain) : f.stored = f := by
  rw [WaveFormat.stored, Nat.mod_eq_of_lt hf.encoding, Nat.mod_eq_of_lt hf.channels,
    Nat.mod_eq_of_lt hf.sampleRate, Nat.mod_eq_of_lt hf.blockAlign, Nat.mod_eq_of_lt hf.bits]

/-- A format that does not refer to an extension is read as what it becomes. -/
theorem WaveFormat.read_stored {file : Array UInt8} {f : WaveFormat} {byteRate : ℕ}
    {place : ChunkPlace} (hf : f.stored.encoding ≠ extensibleEncoding)
    (h : BytesAt file place.start (f.body byteRate)) (hlength : place.length = 16) :
    WaveFormat.read file place = .ok f.stored := by
  have hencoding : readWord file place.start 2 = .ok (f.encoding % 2 ^ 16) :=
    h.left.left.left.left.left.readWord_mod
  have hchannels : readWord file (place.start + 2) 2 = .ok (f.channels % 2 ^ 16) :=
    h.left.left.left.left.right.readWord_mod
  have hrate : readWord file (place.start + 4) 4 = .ok (f.sampleRate % 2 ^ 32) :=
    h.left.left.left.right.readWord_mod
  have hblock : readWord file (place.start + 12) 2 = .ok (f.blockAlign % 2 ^ 16) :=
    h.left.right.readWord_mod
  have hbits : readWord file (place.start + 14) 2 = .ok (f.bits % 2 ^ 16) := h.right.readWord_mod
  have hplain : ¬(f.encoding % 2 ^ 16 = extensibleEncoding ∧ 26 ≤ place.length) :=
    fun hext => hf hext.1
  rw [WaveFormat.read, if_neg (by omega), hencoding, hchannels, hrate, hblock, hbits]
  exact (if_neg hplain).trans rfl

/-- A plain format is read as it was written. -/
theorem WaveFormat.read_eq {file : Array UInt8} {f : WaveFormat} {byteRate : ℕ}
    {place : ChunkPlace} (hf : f.Plain) (h : BytesAt file place.start (f.body byteRate))
    (hlength : place.length = 16) : WaveFormat.read file place = .ok f := by
  have hread := WaveFormat.read_stored (by rw [hf.stored_eq]; exact hf.encoding_ne) h hlength
  rwa [hf.stored_eq] at hread

end EndlessRemix
