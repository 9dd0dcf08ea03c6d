import EndlessRemix.Proofs.Wave.Chunks

/-!
# What a header has room for

The header of a written file states the channels and the bytes of a frame in two bytes each, and the
sample rate and the bytes of all frames in four each. What was decoded from a file has channels and
a sample rate that fit, and its frames fit too, unless the file had one byte for a sample where two
are written. The bytes of a frame do not fit beyond 32767 channels. For 32768 the field is zero,
which is read as frames without gaps; for more it is too small, and the written file is refused.
-/

namespace EndlessRemix

/-! ## The fields of a header -/

/-- The fields of a written header, each less what does not fit. -/
theorem readWord_encodeWave {R : Type} [Scalar R] (b : SampleBuffer R) :
    readWord (encodeWave b) 22 2 = .ok (b.channels.length % 2 ^ 16)
      ∧ readWord (encodeWave b) 24 4 = .ok (b.waveFormat.sampleRate % 2 ^ 32)
      ∧ readWord (encodeWave b) 32 2 = .ok (2 * b.channels.length % 2 ^ 16)
      ∧ readWord (encodeWave b) 40 4 = .ok (2 * b.channels.length * b.frameCount % 2 ^ 32) := by
  have hformat := (bytesAt_encodeWave b).1
  have hsize : BytesAt (encodeWave b) 40 (Word.toBytes 4 b.dataChunk.body.length) :=
    (bytesAt_header b).left.right.right
  rw [b.length_data, Nat.mul_comm b.frameCount] at hsize
  exact ⟨hformat.left.left.left.left.right.readWord_mod,
    hformat.left.left.left.right.readWord_mod, hformat.left.right.readWord_mod, hsize.readWord_mod⟩

/-! ## What is decoded -/

/-- A sample takes one byte, or at least two. -/
lemma SampleEncoding.bits_of? {encoding bits : ℕ} {e : SampleEncoding}
    (h : SampleEncoding.of? encoding bits = some e) : bits = 8 ∨ 16 ≤ bits := by
  unfold SampleEncoding.of? at h
  split_ifs at h <;> omega

/-- The format that describes the samples of a file. -/
def LastFormat (file : Array UInt8) (format : WaveFormat) : Prop :=
  ∃ places formats, chunkPlaces file = .ok places
    ∧ (places.filter (·.tag = formatTag)).mapM (WaveFormat.read file) = .ok formats
    ∧ formats.getLast? = some format

/-- What is known of a buffer that was decoded with this format. -/
structure DecodedBy (format : WaveFormat) (b : SampleBuffer Float) : Prop where
  check : b.check = .ok ()
  channels : b.channels.length = format.channels
  channels_lt : format.channels < 2 ^ 16
  sampleRate : b.sampleRate = Scalar.ofNat format.sampleRate
  sampleRate_pos : 0 < format.sampleRate
  sampleRate_lt : format.sampleRate < 2 ^ 32
  bits : format.bits = 8 ∨ 16 ≤ format.bits
  bytes_lt : b.channels.length * b.frameCount * (format.bits / 8) < 2 ^ 32

section

variable {file : Array UInt8} {format : WaveFormat} {b : SampleBuffer Float}

/-- A decoded buffer was decoded with the last format of the file. -/
lemma exists_decodedBy (h : decodeWave file = .ok b) :
    ∃ format, LastFormat file format ∧ DecodedBy format b := by
  obtain ⟨places, formats, format, data, grid, hplaces, hformats, hformat, hdata, hgrid, hchannels,
    hsampleRate⟩ := of_decodeWave h
  have hin := (sound_counts file).of_ok hplaces
  obtain ⟨hdataIn, hdataLt⟩ := hin data (mem_of_lastPlace? hdata)
  have hfields : format.channels < 2 ^ 16 ∧ format.sampleRate < 2 ^ 32 := by
    have hall : Sound ((places.filter (·.tag = formatTag)).mapM (WaveFormat.read file)) _ :=
      Sound.mapM fun place hplace =>
        WaveFormat.sound_fields (hin place (List.mem_filter.mp hplace).1).1
    exact (hall.of_ok hformats).2 format (List.mem_of_getLast? hformat)
  obtain ⟨hpos, hrate, hencoding, hfits⟩ := (format.sound_grid data).of_ok hgrid
  obtain ⟨hlength, hequal⟩ := (SampleGrid.sound_channels hfits hdataIn).of_ok hchannels
  obtain ⟨hcheck, hframes⟩ := check_of_size (List.length_pos_iff.mp (hlength ▸ hpos)) hequal
  refine ⟨format, ⟨places, formats, hplaces, hformats, hformat⟩, hcheck, hlength, hfields.1,
    hsampleRate, hrate, hfields.2, SampleEncoding.bits_of? hencoding, ?_⟩
  rw [hframes, hlength, SampleEncoding.width_of? hencoding, Nat.mul_div_cancel_left _ (by decide)]
  exact lt_of_le_of_lt hfits.bytes_le hdataLt

namespace DecodedBy

/-- The bytes of all frames fit if those of the file did with two bytes a sample. -/
lemma size_lt (h : DecodedBy format b) (hbits : format.bits ≠ 8) :
    2 * b.channels.length * b.frameCount < 2 ^ 32 := by
  have hwidth : 2 ≤ format.bits / 8 := by
    have hcases := h.bits
    omega
  calc 2 * b.channels.length * b.frameCount = b.channels.length * b.frameCount * 2 := by ring
    _ ≤ b.channels.length * b.frameCount * (format.bits / 8) := Nat.mul_le_mul_left _ hwidth
    _ < 2 ^ 32 := h.bytes_lt

lemma statable (h : DecodedBy format b) (hsize : 2 * b.channels.length * b.frameCount < 2 ^ 32) :
    b.Statable where
  check := h.check
  channels := h.channels ▸ h.channels_lt
  sampleRate := ⟨format.sampleRate, h.sampleRate_pos, h.sampleRate_lt, h.sampleRate⟩
  size := hsize

end DecodedBy

/-- What a decoded file becomes when it is written. The channels and the sample rate are stated as
they are, the bytes of a frame and of all frames less what does not fit; and those of all frames fit
if the file had more than one byte for a sample. A written file whose frames fit is decoded with the
same sample rate, channels and frames if it has at most 32768 channels, and is refused otherwise. -/
theorem encodeWave_decoded (h : decodeWave file = .ok b) :
    (∃ rate, 1 ≤ rate ∧ rate < 2 ^ 32 ∧ b.sampleRate = Scalar.ofNat rate
        ∧ readWord (encodeWave b) 24 4 = .ok rate)
      ∧ 1 ≤ b.channels.length ∧ readWord (encodeWave b) 22 2 = .ok b.channels.length
      ∧ readWord (encodeWave b) 32 2 = .ok (2 * b.channels.length % 2 ^ 16)
      ∧ readWord (encodeWave b) 40 4 = .ok (2 * b.channels.length * b.frameCount % 2 ^ 32)
      ∧ (∃ format, LastFormat file format
          ∧ (format.bits ≠ 8 → 2 * b.channels.length * b.frameCount < 2 ^ 32))
      ∧ (2 * b.channels.length * b.frameCount < 2 ^ 32 →
          (b.channels.length ≤ 32768 → ∃ again : SampleBuffer Float,
              decodeWave (encodeWave b) = .ok again ∧ again.sampleRate = b.sampleRate
                ∧ again.channels.length = b.channels.length ∧ again.frameCount = b.frameCount)
            ∧ (32768 < b.channels.length → decodeWave (R := Float) (encodeWave b)
              = .error (.smallBlock (2 * b.channels.length - 65536) b.channels.length))) := by
  obtain ⟨format, hlast, hby⟩ := exists_decodedBy h
  obtain ⟨hchannels, hrate, hblock, hsize⟩ := readWord_encodeWave b
  have hpos : 1 ≤ b.channels.length := List.length_pos_iff.mpr (check_eq_ok.mp hby.check).1
  have hfit : b.channels.length < 2 ^ 16 := hby.channels ▸ hby.channels_lt
  have hword := waveFormat_sampleRate hby.sampleRate_lt hby.sampleRate
  rw [Nat.mod_eq_of_lt hfit] at hchannels
  rw [hword, Nat.mod_eq_of_lt hby.sampleRate_lt] at hrate
  refine ⟨⟨format.sampleRate, hby.sampleRate_pos, hby.sampleRate_lt, hby.sampleRate, hrate⟩, hpos,
    hchannels, hblock, hsize, ⟨format, hlast, hby.size_lt⟩, fun hfits => ?_⟩
  have hdecode := (hby.statable hfits).decodeWave_eq
  constructor
  · intro hfew
    rw [if_pos hfew] at hdecode
    exact ⟨_, hdecode, rfl, SampleBuffer.length_channels_mapSamples,
      SampleBuffer.frameCount_mapSamples⟩
  · intro hmany
    rw [hdecode, if_neg (not_le.mpr hmany)]

end

/-! ## Files of many channels -/

/-- What is read of the byte in the middle of the range. -/
def silence : Sample := (SampleEncoding.integer 1).sample 0x80

/-- The format of a file with one byte a sample. -/
def byteFormat (n : ℕ) : WaveFormat := ⟨WaveFormat.integerEncoding, n, 8000, n, 8⟩

/-- The chunks of a file of one silent frame, with one byte for each of `n` channels. -/
def silentChunks (n : ℕ) : List Chunk :=
  [⟨formatTag, (byteFormat n).body (8000 * n)⟩, ⟨dataTag, List.replicate n 0x80⟩]

def silentFile (n : ℕ) : Array UInt8 := (waveFile (silentChunks n)).toArray

/-- What such a file is decoded to. -/
def silentBuffer (n : ℕ) : SampleBuffer Float := ⟨Scalar.ofNat 8000, List.replicate n #[silence]⟩

section

variable {n : ℕ}

lemma length_silentBuffer : (silentBuffer n).channels.length = n := List.length_replicate

lemma frameCount_silentBuffer (hpos : 0 < n) : (silentBuffer n).frameCount = 1 := by
  obtain ⟨m, rfl⟩ := Nat.exists_eq_succ_of_ne_zero hpos.ne'
  rfl

lemma plain_byteFormat (hlt : n < 2 ^ 16) : (byteFormat n).Plain :=
  have hencoding : WaveFormat.integerEncoding < 2 ^ 16 := by decide
  have hne : WaveFormat.integerEncoding ≠ WaveFormat.extensibleEncoding := by decide
  ⟨hencoding, hne, hlt, (by norm_num : 8000 < 2 ^ 32), hlt, (by norm_num : 8 < 2 ^ 16)⟩

lemma grid_byteFormat (hpos : 0 < n) :
    (byteFormat n).grid ⟨dataTag, 0, n⟩ = .ok ⟨.integer 1, 0, n, 1⟩ := by
  have hnonzero : ¬(n = 0 ∨ 8000 = 0) := by omega
  have hencoding : SampleEncoding.of? WaveFormat.integerEncoding 8 = some (.integer 1) := by decide
  unfold WaveFormat.grid byteFormat
  dsimp only
  rw [if_neg hnonzero, hencoding]
  simp only [SampleEncoding.width, Nat.one_mul, if_neg hpos.ne', if_neg (lt_irrefl n),
    Nat.div_self hpos]
  rfl

/-- Every channel is read as one silent sample. -/
lemma channel_silence {c : ℕ} (hc : c < n) :
    (⟨.integer 1, 0, n, 1⟩ : SampleGrid).channel (List.replicate n 0x80).toArray c
      = .ok #[silence] := by
  have hat : BytesAt (List.replicate n 0x80).toArray c (Word.toBytes 1 0x80) := by
    refine ⟨List.replicate c 0x80, List.replicate (n - 1 - c) 0x80, ?_, List.length_replicate⟩
    show List.replicate n 0x80 = List.replicate c 0x80 ++ List.replicate 1 0x80 ++ _
    rw [List.replicate_append_replicate, List.replicate_append_replicate]
    congr 1
    omega
  have hread : (⟨.integer 1, 0, n, 1⟩ : SampleGrid).read (List.replicate n 0x80).toArray c 0
      = .ok silence := by
    unfold SampleGrid.read
    dsimp only [SampleEncoding.width]
    rw [Nat.zero_mul, Nat.zero_add, Nat.mul_one, hat.readWord_eq (by norm_num)]
    rfl
  show (([0] : List ℕ).mapM ((⟨.integer 1, 0, n, 1⟩ : SampleGrid).read
    (List.replicate n 0x80).toArray c)).map List.toArray = _
  rw [List.mapM_cons, hread]
  rfl

/-- A file may have any number of channels that two bytes can state. -/
theorem decodeWave_silentFile (hpos : 0 < n) (hlt : n < 2 ^ 16) :
    decodeWave (silentFile n) = .ok (silentBuffer n) := by
  have hlength := WaveFormat.length_body (byteFormat n) (8000 * n)
  have hmem : ∀ c ∈ silentChunks n, c.Writable ∧ (c.tag = formatTag → 16 ≤ c.body.length) := by
    intro c hc
    rcases List.mem_pair.mp hc with rfl | rfl
    · exact ⟨⟨rfl, by rw [hlength]; norm_num⟩, fun _ => hlength.ge⟩
    · exact ⟨⟨rfl, by rw [List.length_replicate]; omega⟩, nofun⟩
  have hbodies : decodeWave (R := Float) (silentFile n)
      = decodeBodies (some ((byteFormat n).body (8000 * n))) (some (List.replicate n 0x80)) :=
    decodeWave_riffFile _ (chunkRow_chunkBytes _) (fun c hc => (hmem c hc).1)
      fun c hc => (hmem c hc).2
  have hread : WaveFormat.read ((byteFormat n).body (8000 * n)).toArray ⟨formatTag, 0, 16⟩
      = .ok (byteFormat n) :=
    WaveFormat.read_eq (plain_byteFormat hlt) (bytesAt_toArray _) rfl
  have hrow : (List.range n).mapM
      ((⟨.integer 1, 0, n, 1⟩ : SampleGrid).channel (List.replicate n 0x80).toArray)
      = .ok (List.replicate n #[silence]) := by
    have hall : (List.range (List.replicate n (0x80 : UInt8)).length).mapM
        ((⟨.integer 1, 0, n, 1⟩ : SampleGrid).channel (List.replicate n 0x80).toArray)
        = .ok ((List.replicate n (0x80 : UInt8)).map fun _ => #[silence]) := by
      refine mapM_range_eq_ok fun c _ hc => ?_
      have hmem := (List.getElem?_eq_some_iff.mp hc).1
      rw [List.length_replicate] at hmem
      exact channel_silence hmem
    rwa [List.length_replicate, List.map_replicate] at hall
  have hcount : (byteFormat n).channels = n := rfl
  rw [hbodies]
  simp only [decodeBodies, hlength, hread, ok_bind, List.length_replicate, grid_byteFormat hpos,
    hcount, hrow]
  rfl

end

/-- With 32768 channels the bytes of a frame are stated as none, and the file is decoded. -/
theorem encodeWave_decoded_widest : ∃ again : SampleBuffer Float,
    decodeWave (silentFile 32768) = .ok (silentBuffer 32768)
      ∧ readWord (encodeWave (silentBuffer 32768)) 32 2 = .ok 0
      ∧ decodeWave (encodeWave (silentBuffer 32768)) = .ok again
      ∧ again.channels.length = 32768 ∧ again.frameCount = 1 := by
  have hdecode := decodeWave_silentFile (n := 32768) (by norm_num) (by norm_num)
  obtain ⟨-, -, -, hblock, -, -, hagain⟩ := encodeWave_decoded hdecode
  rw [length_silentBuffer, frameCount_silentBuffer (by norm_num)] at hagain
  rw [length_silentBuffer] at hblock
  obtain ⟨again, hok, -, hlength, hframes⟩ := (hagain (by norm_num)).1 le_rfl
  exact ⟨again, hdecode, hblock, hok, hlength, hframes⟩

/-- With one channel more it is refused, so not all that is decoded can be written. -/
theorem not_decodeWave_encodeWave_decoded :
    ¬∀ (file : Array UInt8) (b : SampleBuffer Float), decodeWave file = .ok b →
      ∃ again : SampleBuffer Float, decodeWave (encodeWave b) = .ok again
        ∧ again.sampleRate = b.sampleRate ∧ again.channels.length = b.channels.length
        ∧ again.frameCount = b.frameCount := by
  intro hall
  have hdecode := decodeWave_silentFile (n := 32769) (by norm_num) (by norm_num)
  obtain ⟨again, hok, -⟩ := hall _ _ hdecode
  obtain ⟨format, -, hby⟩ := exists_decodedBy hdecode
  have hsize : 2 * (silentBuffer 32769).channels.length * (silentBuffer 32769).frameCount
      < 2 ^ 32 := by
    rw [length_silentBuffer, frameCount_silentBuffer (by norm_num)]
    norm_num
  have hrefused := (hby.statable hsize).decodeWave_eq
  rw [length_silentBuffer, if_neg (by norm_num), hok] at hrefused
  cases hrefused

end EndlessRemix
