import EndlessRemix.Proofs.Wave.RoundTrip

/-!
# Files that end too early

The first bytes of a written file are decoded to the first frames of the whole file. A cut within
the header is an input error that tells how far the file goes: the marks, the name of the format
chunk, its body, and the name of the data chunk take 44 bytes together. Behind these there are as
many frames as whole blocks.
-/

namespace EndlessRemix

/-! ## The chunks that are left -/

section

variable {R : Type} [Scalar R] (b : SampleBuffer R) {m : ℕ}

lemma size_encodeWave : (encodeWave b).size = 44 + b.dataChunk.body.length := by
  rw [← Array.length_toList, toList_encodeWave, List.length_append, length_waveHeader]

/-- The marks of a written file and the heads of its two chunks. -/
lemma bytesAt_heads :
    BytesAt (encodeWave b) 0 (riffTag ++ Word.toBytes 4 (36 + b.dataChunk.body.length) ++ waveTag)
      ∧ BytesAt (encodeWave b) 12 (formatTag ++ Word.toBytes 4 16)
      ∧ BytesAt (encodeWave b) 36 (dataTag ++ Word.toBytes 4 b.dataChunk.body.length) :=
  ⟨(bytesAt_header b).left.left.left, (bytesAt_header b).left.left.right.left,
    (bytesAt_header b).left.right⟩

lemma size_cut (hsize : m ≤ (encodeWave b).size) : ((encodeWave b).extract 0 m).size = m := by
  rw [Array.size_extract, Nat.sub_zero, Nat.min_eq_left hsize]

/-- With both marks the chunks behind them are looked for; the head of the first one takes eight
bytes. -/
lemma chunkPlaces_marks (hm : 12 ≤ m) (hlt : m < 20) :
    chunkPlaces ((encodeWave b).extract 0 m) = .ok [] := by
  rw [chunkPlaces_of_marks ((bytesAt_heads b).1.extract hm)]
  apply chunkPlacesFrom_end
  rw [Array.size_extract]
  omega

/-- The format chunk has as much of its body as there is, and the other chunks are behind it. -/
lemma chunkPlaces_format (hm : 20 ≤ m) (hsize : m ≤ (encodeWave b).size) {places : List ChunkPlace}
    (hrest : chunkPlacesFrom ((encodeWave b).extract 0 m) 36 = .ok places) :
    chunkPlaces ((encodeWave b).extract 0 m)
      = .ok (⟨formatTag, 20, min 16 (m - 20)⟩ :: places) := by
  have hmarks := (bytesAt_heads b).1.extract (le_trans (by decide : 0 + 12 ≤ 20) hm)
  have hhead := (bytesAt_heads b).2.1.extract hm
  rw [chunkPlaces_of_marks hmarks, chunkPlacesFrom_cons rfl (by norm_num) hhead rfl hrest,
    size_cut b hsize]

/-- The data chunk has what is left of the file, and no chunk is behind it. -/
lemma chunkPlacesFrom_data (hdata : b.dataChunk.body.length < 2 ^ 32) (hm : 44 ≤ m)
    (hsize : m ≤ (encodeWave b).size) :
    chunkPlacesFrom ((encodeWave b).extract 0 m) 36 = .ok [⟨dataTag, 44, m - 44⟩] := by
  have hhead := (bytesAt_heads b).2.2.extract hm
  have hcut := size_cut b hsize
  rw [size_encodeWave] at hsize
  have hmin : min b.dataChunk.body.length (m - 44) = m - 44 := by omega
  have hend : chunkPlacesFrom ((encodeWave b).extract 0 m)
      (36 + 8 + b.dataChunk.body.length + b.dataChunk.body.length % 2) = .ok [] := by
    apply chunkPlacesFrom_end
    rw [hcut]
    omega
  rw [chunkPlacesFrom_cons rfl hdata hhead rfl hend, hcut, hmin]

/-- A format chunk that has its whole body is read. -/
lemma read_format_cut (hm : 36 ≤ m) :
    WaveFormat.read ((encodeWave b).extract 0 m) ⟨formatTag, 20, 16⟩ = .ok b.waveFormat.stored := by
  have hencoding : b.waveFormat.stored.encoding ≠ WaveFormat.extensibleEncoding := by
    show WaveFormat.integerEncoding % 2 ^ 16 ≠ _
    decide
  have hbody : 20 + (b.waveFormat.body b.byteRate).length ≤ m := by
    rwa [WaveFormat.length_body]
  exact WaveFormat.read_stored hencoding ((bytesAt_encodeWave b).1.extract hbody) rfl

/-- So the format of the file is known once the body is there. -/
lemma formats_cut (hm : 36 ≤ m) {places : List ChunkPlace}
    (hplaces : places.filter (·.tag = formatTag) = [⟨formatTag, 20, 16⟩]) :
    (places.filter (·.tag = formatTag)).mapM (WaveFormat.read ((encodeWave b).extract 0 m))
      = .ok [b.waveFormat.stored] := by
  rw [hplaces, List.mapM_cons, read_format_cut b hm]
  rfl

end

/-! ## Cuts within the header -/

section

variable {R : Type} [Scalar R] (b : SampleBuffer R) {m : ℕ}

/-- What is wrong with a file that ends within the header. -/
def headerFault (m : ℕ) : WaveFault :=
  if m < 12 then .notWave
  else if m < 20 then .noFormat
  else if m < 36 then .shortFormat (m - 20)
  else .noData

lemma kind?_headerFault (m : ℕ) : (headerFault m).kind? = some .input := by
  unfold headerFault
  split_ifs <;> rfl

/-- A file that ends within the header is refused. -/
theorem decodeWave_header (hm : m < 44) :
    decodeWave (R := R) ((encodeWave b).extract 0 m) = .error (headerFault m) := by
  have hsize : m ≤ (encodeWave b).size := by
    rw [size_encodeWave]
    omega
  have hcut := size_cut b hsize
  unfold headerFault
  split_ifs with hmarks hformat hbody
  · rw [decodeWave, chunkPlaces, if_pos (by omega)]
    rfl
  · rw [decodeWave, chunkPlaces_marks b (not_lt.mp hmarks) hformat]
    rfl
  · have hmin : min 16 (m - 20) = m - 20 := by omega
    have hread : WaveFormat.read ((encodeWave b).extract 0 m) ⟨formatTag, 20, m - 20⟩
        = .error (.shortFormat (m - 20)) := by
      rw [WaveFormat.read, if_pos (by dsimp only; omega)]
      rfl
    have hplaces := chunkPlaces_format b (not_lt.mp hformat) hsize (chunkPlacesFrom_end (by omega))
    rw [hmin] at hplaces
    have hformats : ([⟨formatTag, 20, m - 20⟩] : List ChunkPlace).mapM
        (WaveFormat.read ((encodeWave b).extract 0 m)) = .error (.shortFormat (m - 20)) := by
      rw [List.mapM_cons, hread]
      rfl
    rw [decodeWave, hplaces, ok_bind]
    exact congrArg (· >>= _) hformats
  · have hmin : min 16 (m - 20) = 16 := by omega
    have hplaces := chunkPlaces_format b (not_lt.mp hformat) hsize (chunkPlacesFrom_end (by omega))
    rw [hmin] at hplaces
    rw [decodeWave, hplaces, ok_bind]
    have hplace : ([⟨formatTag, 20, 16⟩] : List ChunkPlace).filter (·.tag = formatTag)
        = [⟨formatTag, 20, 16⟩] := rfl
    rw [formats_cut b (not_lt.mp hbody) hplace]
    rfl

end

/-! ## Cuts within the data -/

namespace SampleBuffer.Statable

variable {b : SampleBuffer Float} {c frame m : ℕ}

/-- A sample before the cut is read as in the whole file. -/
lemma read_cut (h : b.Statable) (hframe : frame < (m - 44) / (2 * b.channels.length)) {s : Sample}
    (hs : b.sampleAt? c frame = some s) :
    b.grid.read ((encodeWave b).extract 0 m) c frame = .ok s.quantized := by
  have hbytes := b.bytesAt_level h.check (bytesAt_encodeWave b).2 hs
  obtain ⟨channel, hc, -⟩ := SampleBuffer.sampleAt?_eq_some.mp hs
  have hlt : c < b.channels.length := (List.getElem?_eq_some_iff.mp hc).1
  have hblock : frame * (2 * b.channels.length) + 2 * b.channels.length ≤ m - 44 := by
    calc frame * (2 * b.channels.length) + 2 * b.channels.length
        = (frame + 1) * (2 * b.channels.length) := by ring
      _ ≤ (m - 44) / (2 * b.channels.length) * (2 * b.channels.length) :=
          Nat.mul_le_mul_right _ hframe
      _ ≤ m - 44 := Nat.div_mul_le_self _ _
  apply read_of_bytesAt
  apply hbytes.extract
  rw [levelBytes, Word.length_toBytes]
  omega

/-- As many frames are left as there are whole blocks before the cut. -/
lemma frames_le (h : b.Statable) (hsize : m ≤ (encodeWave b).size) :
    (m - 44) / (2 * b.channels.length) ≤ b.frameCount := by
  have hpos := h.channels_pos
  rw [size_encodeWave, b.length_data] at hsize
  rw [← Nat.mul_div_cancel b.frameCount (by omega : 0 < 2 * b.channels.length)]
  exact Nat.div_le_div_right (by omega)

/-- A channel of a file that ends within the data has its first samples. -/
lemma channel_cut (h : b.Statable) (hsize : m ≤ (encodeWave b).size) {channel : Array Sample}
    (hc : b.channels[c]? = some channel) :
    ({ b.grid with frames := (m - 44) / (2 * b.channels.length) } : SampleGrid).channel
        ((encodeWave b).extract 0 m) c
      = .ok ((channel.map Sample.quantized).extract 0 ((m - 44) / (2 * b.channels.length))) := by
  have hle := h.frames_le hsize
  rw [← size_of_check h.check channel (List.mem_of_getElem? hc)] at hle
  rw [← Array.map_extract]
  refine SampleGrid.channel_of_read ?_ ?_
  · rw [Array.size_extract, Nat.sub_zero, Nat.min_eq_left hle]
  · intro frame s hs
    obtain ⟨hlt, -⟩ := Array.getElem?_eq_some_iff.mp hs
    rw [Array.size_extract, Nat.sub_zero] at hlt
    have hframe := (lt_min_iff.mp hlt).1
    rw [getElem?_extract_zero channel hframe] at hs
    exact h.read_cut hframe (SampleBuffer.sampleAt?_eq_some.mpr ⟨channel, hc, hs⟩)

/-- A written file that ends within the data is decoded to the frames that are whole. -/
theorem decodeWave_cut (h : b.Statable) (hchannels : b.channels.length ≤ 32768) (hm : 44 ≤ m)
    (hsize : m ≤ (encodeWave b).size) :
    decodeWave ((encodeWave b).extract 0 m)
      = .ok ((b.mapSamples Sample.quantized).firstFrames ((m - 44) / (2 * b.channels.length))) := by
  have hdata : b.dataChunk.body.length < 2 ^ 32 := by
    rw [b.length_data, Nat.mul_comm]
    exact h.size
  have hplaces := chunkPlaces_format b (by omega) hsize (chunkPlacesFrom_data b hdata hm hsize)
  have hmin : min 16 (m - 20) = 16 := by omega
  have hformat : [b.waveFormat.stored].getLast? = some b.waveFormat.stored := rfl
  have hlast : lastPlace? dataTag [⟨formatTag, 20, 16⟩, ⟨dataTag, 44, m - 44⟩]
      = some ⟨dataTag, 44, m - 44⟩ := rfl
  have hall : (List.range b.channels.length).mapM
      (({ b.grid with frames := (m - 44) / (2 * b.channels.length) } : SampleGrid).channel
        ((encodeWave b).extract 0 m))
      = .ok (b.channels.map fun channel =>
          (channel.map Sample.quantized).extract 0 ((m - 44) / (2 * b.channels.length))) :=
    mapM_range_eq_ok fun _ _ hc => h.channel_cut hsize hc
  rw [hmin] at hplaces
  rw [decodeWave_of_formats hplaces (formats_cut b (by omega) rfl) hformat hlast,
    h.stored_channels, h.stored_sampleRate, h.grid_of_length, if_pos hchannels, ok_bind, hall,
    ok_bind, SampleBuffer.firstFrames, SampleBuffer.channels_mapSamples, List.map_map]
  rfl

end SampleBuffer.Statable

/-- The first bytes of a written file. If they end within the header, they are refused as an input
error. Otherwise they are decoded to the first frames of what the whole file is decoded to: with its
sample rate, as many channels, and in each of them as many samples as whole blocks are left. -/
theorem decodeWave_truncated {b : SampleBuffer Float} (h : b.Writable) {m : ℕ}
    (hsize : m ≤ (encodeWave b).size) :
    (m < 44 → decodeWave (R := Float) ((encodeWave b).extract 0 m) = .error (headerFault m)
        ∧ (headerFault m).kind? = some .input)
      ∧ (44 ≤ m → ∃ whole cut : SampleBuffer Float, decodeWave (encodeWave b) = .ok whole
        ∧ decodeWave ((encodeWave b).extract 0 m) = .ok cut
        ∧ cut.sampleRate = whole.sampleRate ∧ cut.channels.length = whole.channels.length
        ∧ whole.channels.length = b.channels.length
        ∧ ∀ (c : ℕ) (channel : Array Sample), whole.channels[c]? = some channel →
            (m - 44) / (2 * b.channels.length) ≤ channel.size
              ∧ cut.channels[c]?
                = some (channel.extract 0 ((m - 44) / (2 * b.channels.length)))) := by
  constructor
  · intro hm
    exact ⟨decodeWave_header b hm, kind?_headerFault m⟩
  · intro hm
    have hchannels := h.channels
    refine ⟨_, _, decodeWave_encodeWave h,
      h.statable.decodeWave_cut (by omega) hm hsize, rfl, ?_, ?_, ?_⟩
    · rw [SampleBuffer.channels_firstFrames, List.length_map]
    · exact SampleBuffer.length_channels_mapSamples
    · intro c channel hc
      have hcheck := SampleBuffer.check_mapSamples (f := Sample.quantized) h.check
      have hframes := h.statable.frames_le hsize
      constructor
      · rwa [size_of_check hcheck channel (List.mem_of_getElem? hc),
          SampleBuffer.frameCount_mapSamples]
      · rw [SampleBuffer.channels_firstFrames, List.getElem?_map, hc]
        rfl

/-- A file of two channels and four frames is cut within its header, and in the first channel's
sample of the third frame: the two frames before it are left in both channels. -/
theorem decodeWave_truncated_stereo :
    decodeWave (R := Float) ((encodeWave stereo).extract 0 40) = .error .noData
      ∧ ∃ whole cut : SampleBuffer Float, decodeWave (encodeWave stereo) = .ok whole
        ∧ decodeWave ((encodeWave stereo).extract 0 53) = .ok cut
        ∧ cut.sampleRate = whole.sampleRate ∧ cut.channels.length = 2
        ∧ ∀ (c : ℕ) (channel : Array Sample), whole.channels[c]? = some channel →
            2 ≤ channel.size ∧ cut.channels[c]? = some (channel.extract 0 2) := by
  have hsize : (encodeWave stereo).size = 60 := by
    rw [size_encodeWave, SampleBuffer.length_data]
    rfl
  obtain ⟨hheader, -⟩ := decodeWave_truncated writable_stereo (by omega : 40 ≤ _)
  obtain ⟨-, hdata⟩ := decodeWave_truncated writable_stereo (by omega : 53 ≤ _)
  obtain ⟨whole, cut, hwhole, hcut, hrate, hlength, htwo, hall⟩ := hdata (by norm_num)
  exact ⟨(hheader (by norm_num)).1, whole, cut, hwhole, hcut, hrate, hlength.trans htwo, hall⟩

end EndlessRemix
