import EndlessRemix.Proofs.Audio.Buffer
import EndlessRemix.Proofs.Except
import EndlessRemix.Proofs.Wave.Layout
import EndlessRemix.Proofs.Wave.Level

/-!
# Reading what was written

A buffer that a sound file has room for is read again with its sample rate, its channels and its
frames, and every sample has become the one that its two-byte level stands for.
-/

namespace EndlessRemix

/-! ## Rows of readings -/

/-- Readings that succeed one after another for the entries of a list give a list of results. -/
lemma mapM_range_eq_ok {ε α β : Type} {f : ℕ → Except ε β} {g : α → β} {xs : List α}
    (h : ∀ i x, xs[i]? = some x → f i = .ok (g x)) :
    (List.range xs.length).mapM f = .ok (xs.map g) := by
  induction xs using List.reverseRecOn with
  | nil => rfl
  | append_singleton xs x ih =>
    have hinit : (List.range xs.length).mapM f = .ok (xs.map g) := by
      refine ih fun i y hy => h i y ?_
      rw [List.getElem?_append_left (List.getElem?_eq_some_iff.mp hy).1, hy]
    have hlast : f xs.length = .ok (g x) := h xs.length x List.getElem?_concat_length
    rw [List.length_append, List.length_singleton, List.range_succ, List.mapM_append, hinit,
      List.map_append]
    show ([xs.length].mapM f >>= fun ys => pure (xs.map g ++ ys)) = _
    rw [List.mapM_cons, hlast]
    rfl

/-! ## Levels in a file -/

/-- Two bytes hold a level. -/
lemma signed_level {level : ℤ} (hlow : -32768 ≤ level) (hhigh : level ≤ 32767) :
    SampleEncoding.level 2 (level % 65536).toNat = level := by
  have h256 : Nat.pow 256 2 = 65536 := rfl
  rw [SampleEncoding.level, if_neg (by decide), Word.signed, h256]
  split_ifs <;> omega

/-- A level is read as it was written. -/
lemma BytesAt.readLevel_eq {file : Array UInt8} {offset : ℕ} {level : ℤ}
    (h : BytesAt file offset (levelBytes level)) (hlow : -32768 ≤ level) (hhigh : level ≤ 32767) :
    (readWord file offset 2).map (SampleEncoding.level 2) = .ok level := by
  rw [h.readWord_eq (by omega)]
  show Except.ok _ = _
  rw [signed_level hlow hhigh]

section

variable {R : Type} {b : SampleBuffer R}

lemma length_frameBytes (channels : List (Array Sample)) (frame : ℕ) :
    (frameBytes channels frame).length = 2 * channels.length := by
  induction channels with
  | nil => rfl
  | cons channel channels ih =>
    have hcons : frameBytes (channel :: channels) frame
        = levelBytes (((channel[frame]?).map Sample.level16).getD 0) ++ frameBytes channels frame :=
      List.flatMap_cons
    rw [hcons, List.length_append, ih, levelBytes, Word.length_toBytes, List.length_cons]
    omega

lemma SampleBuffer.length_data (b : SampleBuffer R) :
    b.dataChunk.body.length = b.frameCount * (2 * b.channels.length) := by
  show ((List.range b.frameCount).flatMap (frameBytes b.channels)).length = _
  simp [List.length_flatMap, length_frameBytes]

/-- The level of a sample stands in its frame, behind those of the channels before. -/
lemma SampleBuffer.bytesAt_level {file : Array UInt8} {offset c frame : ℕ} {s : Sample}
    (hcheck : b.check = .ok ()) (h : BytesAt file offset b.dataChunk.body)
    (hs : b.sampleAt? c frame = some s) :
    BytesAt file (offset + frame * (2 * b.channels.length) + c * 2) (levelBytes s.level16) := by
  obtain ⟨channel, hc, hs⟩ := SampleBuffer.sampleAt?_eq_some.mp hs
  have hframe : frame < b.frameCount := by
    rw [← size_of_check hcheck channel (List.mem_of_getElem? hc)]
    exact (Array.getElem?_eq_some_iff.mp hs).1
  have hrow : BytesAt file (offset + frame * (2 * b.channels.length)) (frameBytes b.channels frame) :=
    BytesAt.flatMap h (fun i _ => length_frameBytes b.channels i) (List.getElem?_range hframe)
  have hlevel := BytesAt.flatMap hrow (fun _ _ => Word.length_toBytes 2 _) hc
  rw [hs] at hlevel
  exact hlevel

end

/-! ## Written files -/

/-- A sound file has room for the buffer: it has channels of one length, at most as many as the
block align can count, its sample rate is a positive integer of four bytes, and so is the size that
the header states. -/
structure SampleBuffer.Writable (b : SampleBuffer Float) : Prop where
  check : b.check = .ok ()
  channels : b.channels.length ≤ 32767
  sampleRate : ∃ rate, 1 ≤ rate ∧ rate < 2 ^ 32 ∧ b.sampleRate = Scalar.ofNat rate
  size : 2 * b.channels.length * b.frameCount < 2 ^ 32 - 36

/-- A sound file can state the channels, the sample rate and the size of the data of a buffer,
though perhaps not how many bytes a frame takes. -/
structure SampleBuffer.Statable (b : SampleBuffer Float) : Prop where
  check : b.check = .ok ()
  channels : b.channels.length < 2 ^ 16
  sampleRate : ∃ rate, 1 ≤ rate ∧ rate < 2 ^ 32 ∧ b.sampleRate = Scalar.ofNat rate
  size : 2 * b.channels.length * b.frameCount < 2 ^ 32

lemma SampleBuffer.Writable.statable {b : SampleBuffer Float} (h : b.Writable) : b.Statable where
  check := h.check
  channels := by
    have hchannels := h.channels
    omega
  sampleRate := h.sampleRate
  size := by
    have hsize := h.size
    omega

section

variable {R : Type} [Scalar R]

/-- What a written file has in front of its samples. -/
def waveHeader (f : WaveFormat) (byteRate dataLength : ℕ) : List UInt8 :=
  riffTag ++ Word.toBytes 4 (36 + dataLength) ++ waveTag
    ++ (formatTag ++ Word.toBytes 4 16 ++ f.body byteRate)
    ++ (dataTag ++ Word.toBytes 4 dataLength)

lemma length_waveHeader (f : WaveFormat) (byteRate dataLength : ℕ) :
    (waveHeader f byteRate dataLength).length = 44 := by
  simp [waveHeader, riffTag, waveTag, formatTag, dataTag, WaveFormat.length_body]

/-- A written file is a header and the samples. -/
theorem toList_encodeWave (b : SampleBuffer R) :
    (encodeWave b).toList
      = waveHeader b.waveFormat b.byteRate b.dataChunk.body.length ++ b.dataChunk.body := by
  have hlength := b.length_data
  have heven : b.dataChunk.body.length % 2 = 0 := by
    rw [hlength, Nat.mul_left_comm]
    exact Nat.mul_mod_right 2 _
  have hformat : Chunk.bytes ⟨formatTag, b.waveFormat.body b.byteRate⟩
      = formatTag ++ Word.toBytes 4 16 ++ b.waveFormat.body b.byteRate := by
    simp [Chunk.bytes, WaveFormat.length_body]
  have hdata : b.dataChunk.bytes
      = dataTag ++ Word.toBytes 4 b.dataChunk.body.length ++ b.dataChunk.body := by
    simp [Chunk.bytes, heven]
    rfl
  have hchunks : chunkBytes [⟨formatTag, b.waveFormat.body b.byteRate⟩, b.dataChunk]
      = formatTag ++ Word.toBytes 4 16 ++ b.waveFormat.body b.byteRate
        ++ (dataTag ++ Word.toBytes 4 b.dataChunk.body.length ++ b.dataChunk.body) := by
    rw [chunkBytes, List.flatMap_cons, List.flatMap_cons, List.flatMap_nil, List.append_nil, hformat,
      hdata]
  have hsize : 4 + (chunkBytes [⟨formatTag, b.waveFormat.body b.byteRate⟩, b.dataChunk]).length
      = 36 + b.dataChunk.body.length := by
    rw [hchunks]
    simp [formatTag, dataTag, WaveFormat.length_body]
    omega
  rw [encodeWave, waveFile, waveFileSized, hsize, hchunks, waveHeader]
  simp

lemma bytesAt_header (b : SampleBuffer R) : BytesAt (encodeWave b) 0
    (waveHeader b.waveFormat b.byteRate b.dataChunk.body.length ++ b.dataChunk.body) :=
  ⟨[], [], by rw [toList_encodeWave]; simp, rfl⟩

/-- Where the two bodies of a written file stand. -/
lemma bytesAt_encodeWave (b : SampleBuffer R) :
    BytesAt (encodeWave b) 20 (b.waveFormat.body b.byteRate)
      ∧ BytesAt (encodeWave b) 44 b.dataChunk.body := by
  have hdata := (bytesAt_header b).right
  rw [length_waveHeader] at hdata
  exact ⟨(bytesAt_header b).left.left.right.right, hdata⟩

/-- One of the chunks of a written file is a format, and it is what the format of the buffer
becomes. -/
lemma formats_encodeWave (b : SampleBuffer R) :
    (([⟨formatTag, 20, 16⟩, ⟨dataTag, 44, b.dataChunk.body.length⟩] :
      List ChunkPlace).filter (·.tag = formatTag)).mapM (WaveFormat.read (encodeWave b))
      = .ok [b.waveFormat.stored] := by
  have hencoding : b.waveFormat.stored.encoding ≠ WaveFormat.extensibleEncoding := by
    show WaveFormat.integerEncoding % 2 ^ 16 ≠ _
    decide
  have hformat : WaveFormat.read (encodeWave b) ⟨formatTag, 20, 16⟩ = .ok b.waveFormat.stored :=
    WaveFormat.read_stored hencoding (bytesAt_encodeWave b).1 rfl
  show ([⟨formatTag, 20, 16⟩] : List ChunkPlace).mapM (WaveFormat.read (encodeWave b)) = _
  rw [List.mapM_cons, hformat]
  rfl

end

/-- The samples of a written file stand frame by frame, with two bytes each. -/
def SampleBuffer.grid (b : SampleBuffer Float) : SampleGrid :=
  ⟨.integer 2, 44, 2 * b.channels.length, b.frameCount⟩

/-- A sample rate of four bytes is written as it is. -/
lemma waveFormat_sampleRate {b : SampleBuffer Float} {rate : ℕ} (hlt : rate < 2 ^ 32)
    (hrate : b.sampleRate = Scalar.ofNat rate) : b.waveFormat.sampleRate = rate := by
  have hwhole : Scalar.whole (Scalar.ofNat rate : Float) = .int rate :=
    Double.whole_of_value (Double.value?_ofNat (by omega))
  show (Scalar.whole b.sampleRate).toWord 32 = rate
  rw [hrate, hwhole, Whole.toWord, Nat.pow_eq]
  omega

/-- A sample is read as the one that its level stands for, wherever that stands. -/
lemma read_of_bytesAt {b : SampleBuffer Float} {file : Array UInt8} {c frame : ℕ} {s : Sample}
    (h : BytesAt file (44 + frame * (2 * b.channels.length) + c * 2) (levelBytes s.level16)) :
    b.grid.read file c frame = .ok s.quantized := by
  have hmem := s.level16_mem
  have hword := h.readWord_eq (by omega)
  show (readWord file (44 + frame * (2 * b.channels.length) + c * 2) 2).map
    (SampleEncoding.integer 2).sample = _
  rw [hword]
  show Except.ok (Sample.ofDatum (SampleEncoding.fraction 2 (SampleEncoding.level 2 _))) = _
  rw [signed_level hmem.1 hmem.2, Sample.quantized]

/-- A channel is read if each of its samples is. -/
lemma SampleGrid.channel_of_read {g : SampleGrid} {file : Array UInt8} {c : ℕ}
    {channel : Array Sample} {f : Sample → Sample} (hframes : channel.size = g.frames)
    (h : ∀ frame s, channel[frame]? = some s → g.read file c frame = .ok (f s)) :
    g.channel file c = .ok (channel.map f) := by
  have hrow : (List.range channel.toList.length).mapM (g.read file c)
      = .ok (channel.toList.map f) := by
    refine mapM_range_eq_ok fun frame s hs => h frame s ?_
    rwa [Array.getElem?_toList] at hs
  rw [Array.length_toList, hframes] at hrow
  rw [SampleGrid.channel, hrow, ← Array.toList_map]
  rfl

namespace SampleBuffer.Statable

variable {b : SampleBuffer Float} {c frame : ℕ} {channel : Array Sample} {s : Sample}

lemma channels_pos (h : b.Statable) : 0 < b.channels.length :=
  List.length_pos_iff.mpr (check_eq_ok.mp h.check).1

lemma sampleRate_eq (h : b.Statable) :
    0 < b.waveFormat.sampleRate ∧ b.waveFormat.sampleRate < 2 ^ 32
      ∧ Scalar.ofNat b.waveFormat.sampleRate = b.sampleRate := by
  obtain ⟨rate, hpos, hlt, hrate⟩ := h.sampleRate
  rw [waveFormat_sampleRate hlt hrate]
  exact ⟨hpos, hlt, hrate.symm⟩

/-- Of the format only the bytes of a frame may not fit. -/
lemma stored_eq (h : b.Statable) : b.waveFormat.stored
    = { b.waveFormat with blockAlign := 2 * b.channels.length % 2 ^ 16 } := by
  have hchannels : b.waveFormat.channels % 2 ^ 16 = b.waveFormat.channels :=
    Nat.mod_eq_of_lt h.channels
  rw [WaveFormat.stored, hchannels, Nat.mod_eq_of_lt h.sampleRate_eq.2.1]
  rfl

lemma stored_channels (h : b.Statable) : b.waveFormat.stored.channels = b.channels.length := by
  rw [h.stored_eq]
  rfl

lemma stored_sampleRate (h : b.Statable) :
    Scalar.ofNat b.waveFormat.stored.sampleRate = b.sampleRate := by
  rw [h.stored_eq]
  exact h.sampleRate_eq.2.2

/-- Two chunks are found in a written file. -/
lemma places_eq (h : b.Statable) : chunkPlaces (encodeWave b)
    = .ok [⟨formatTag, 20, 16⟩, ⟨dataTag, 44, b.dataChunk.body.length⟩] := by
  have hwritable : ∀ c ∈ [⟨formatTag, b.waveFormat.body b.byteRate⟩, b.dataChunk],
      Chunk.Writable c := by
    intro c hc
    rcases List.mem_pair.mp hc with rfl | rfl
    · exact ⟨rfl, by rw [WaveFormat.length_body]; norm_num⟩
    · refine ⟨rfl, ?_⟩
      rw [b.length_data, Nat.mul_comm]
      exact h.size
  have hlength := WaveFormat.length_body b.waveFormat b.byteRate
  rw [encodeWave, waveFile, chunkPlaces_eq _ hwritable, placesOf, placesOf, placesOf,
    Chunk.length_bytes rfl, hlength]
  rfl

/-- The grid of as much of the data as there is is that of the buffer, with the frames that are
whole, unless the bytes of a frame do not fit into their field and are taken for too few. -/
lemma grid_of_length (h : b.Statable) (length : ℕ) :
    b.waveFormat.stored.grid ⟨dataTag, 44, length⟩
      = if b.channels.length ≤ 32768 then
          .ok { b.grid with frames := length / (2 * b.channels.length) }
        else .error (.smallBlock (2 * b.channels.length - 65536) b.channels.length) := by
  have hpos := h.channels_pos
  have hlt := h.channels
  have hrate := h.sampleRate_eq.1
  have hnonzero : ¬(b.waveFormat.channels = 0 ∨ b.waveFormat.sampleRate = 0) := by
    rintro (hzero | hzero)
    · exact hpos.ne' hzero
    · exact hrate.ne' hzero
  have hencoding : SampleEncoding.of? b.waveFormat.encoding b.waveFormat.bits
      = some (.integer 2) := by
    show SampleEncoding.of? WaveFormat.integerEncoding 16 = _
    decide
  have hchannels : b.waveFormat.channels = b.channels.length := rfl
  rw [h.stored_eq, WaveFormat.grid, if_neg hnonzero, hencoding]
  simp only [SampleEncoding.width, hchannels]
  by_cases hmany : b.channels.length ≤ 32768
  · -- a block align of zero, for as many channels as fit no longer, is as good as the right one
    have halign : (if 2 * b.channels.length % 2 ^ 16 = 0 then 2 * b.channels.length
        else 2 * b.channels.length % 2 ^ 16) = 2 * b.channels.length := by
      split_ifs with hzero <;> omega
    rw [if_pos hmany, halign, if_neg (lt_irrefl _)]
    rfl
  · have halign : (if 2 * b.channels.length % 2 ^ 16 = 0 then 2 * b.channels.length
        else 2 * b.channels.length % 2 ^ 16) = 2 * b.channels.length - 65536 := by
      split_ifs with hzero <;> omega
    rw [if_neg hmany, halign, if_pos (by omega)]
    rfl

/-- The grid of all data is that of the buffer. -/
lemma grid_eq (h : b.Statable) :
    b.waveFormat.stored.grid ⟨dataTag, 44, b.dataChunk.body.length⟩
      = if b.channels.length ≤ 32768 then .ok b.grid
        else .error (.smallBlock (2 * b.channels.length - 65536) b.channels.length) := by
  have hpos := h.channels_pos
  have hframes : b.dataChunk.body.length / (2 * b.channels.length) = b.frameCount := by
    rw [b.length_data, Nat.mul_div_cancel _ (by omega)]
  rw [h.grid_of_length, hframes]
  rfl

/-- Every sample of a written file is read as the one that its level stands for. -/
lemma read_eq (h : b.Statable) (hs : b.sampleAt? c frame = some s) :
    b.grid.read (encodeWave b) c frame = .ok s.quantized :=
  read_of_bytesAt (b.bytesAt_level h.check (bytesAt_encodeWave b).2 hs)

lemma channel_eq (h : b.Statable) (hc : b.channels[c]? = some channel) :
    b.grid.channel (encodeWave b) c = .ok (channel.map Sample.quantized) := by
  refine SampleGrid.channel_of_read (size_of_check h.check channel (List.mem_of_getElem? hc)) ?_
  intro frame s hs
  exact h.read_eq (SampleBuffer.sampleAt?_eq_some.mpr ⟨channel, hc, hs⟩)

lemma channels_eq (h : b.Statable) :
    (List.range b.channels.length).mapM (b.grid.channel (encodeWave b))
      = .ok (b.channels.map (·.map Sample.quantized)) :=
  mapM_range_eq_ok fun _ _ hc => h.channel_eq hc

end SampleBuffer.Statable

section

variable {R : Type} [Scalar R] {file : Array UInt8} {places : List ChunkPlace}
  {formats : List WaveFormat} {format : WaveFormat} {data : ChunkPlace}

/-- Once the chunks of a file are found and its formats are read, the last format and the last data
decide. -/
lemma decodeWave_of_formats (hplaces : chunkPlaces file = .ok places)
    (hformats : (places.filter (·.tag = formatTag)).mapM (WaveFormat.read file) = .ok formats)
    (hformat : formats.getLast? = some format) (hdata : lastPlace? dataTag places = some data) :
    decodeWave (R := R) file = (format.grid data >>= fun grid =>
      (List.range format.channels).mapM (grid.channel file) >>= fun channels =>
        .ok ⟨Scalar.ofNat format.sampleRate, channels⟩) := by
  simp only [decodeWave, hplaces, ok_bind, hformats, hformat, hdata]
  rfl

end

/-- A written file is read again, with every sample at its level, if the bytes of a frame are stated
or left open; otherwise it is refused. -/
theorem SampleBuffer.Statable.decodeWave_eq {b : SampleBuffer Float} (h : b.Statable) :
    decodeWave (encodeWave b) = if b.channels.length ≤ 32768 then .ok (b.mapSamples Sample.quantized)
      else .error (.smallBlock (2 * b.channels.length - 65536) b.channels.length) := by
  have hlast : [b.waveFormat.stored].getLast? = some b.waveFormat.stored := rfl
  have hdata : lastPlace? dataTag
      [⟨formatTag, 20, 16⟩, ⟨dataTag, 44, b.dataChunk.body.length⟩]
      = some ⟨dataTag, 44, b.dataChunk.body.length⟩ := rfl
  rw [decodeWave_of_formats h.places_eq (formats_encodeWave b) hlast hdata, h.stored_channels,
    h.stored_sampleRate, h.grid_eq]
  split_ifs with hmany
  · rw [ok_bind, h.channels_eq]
    rfl
  · rfl

/-- A written file is read again, with every sample at its level. -/
theorem decodeWave_encodeWave {b : SampleBuffer Float} (h : b.Writable) :
    decodeWave (encodeWave b) = .ok (b.mapSamples Sample.quantized) := by
  have hchannels := h.channels
  rw [h.statable.decodeWave_eq, if_pos (by omega)]

/-! ## Quantisation -/

/-- One sample is another one to the precision of two bytes: it is a level, silence for what is no
number, and else near the other sample clamped to full scale. -/
structure Sample.Quantizes (t s : Sample) : Prop where
  level : ∃ k : ℤ, -32768 ≤ k ∧ k ≤ 32767 ∧ Double.value? t.toFloat = some ((k : ℚ) / 32768)
  silent : s.datum = .notANumber → Double.value? t.toFloat = some 0
  near : s.datum ≠ .notANumber → ∃ v q, Double.value? t.toFloat = some q
    ∧ Double.value? (Double.max (-1) (Double.min 1 s.toFloat)) = some v ∧ |q - v| ≤ 3 / 2 / 32768

lemma Sample.quantizes_quantized (s : Sample) : s.quantized.Quantizes s := by
  have hvalue : Double.value? s.quantized.toFloat = some ((s.level16 : ℚ) / 32768) := by
    rw [value?_toFloat, value?_quantized]
  refine ⟨⟨s.level16, s.level16_mem.1, s.level16_mem.2, hvalue⟩, fun h => ?_, fun h => ?_⟩
  · rw [hvalue, level16_of_notANumber h]
    norm_num
  · obtain ⟨v, hv, -, hhigh⟩ := exists_clamped h
    refine ⟨v, _, hvalue, s.value?_clamped.trans hv, ?_⟩
    rw [level16, Datum.level16_eq hv]
    exact abs_levelOf_sub_le hhigh

/-- Quantisation keeps the order of samples. -/
lemma Sample.quantized_le {s t : Sample} (h : s.toFloat ≤ t.toFloat) :
    s.quantized.toFloat ≤ t.quantized.toFloat := by
  have hs : Double.value? s.quantized.toFloat = some ((s.level16 : ℚ) / 32768) := by
    rw [value?_toFloat, value?_quantized]
  have ht : Double.value? t.quantized.toFloat = some ((t.level16 : ℚ) / 32768) := by
    rw [value?_toFloat, value?_quantized]
  have hle : (s.level16 : ℚ) ≤ t.level16 := by exact_mod_cast level16_mono h
  rw [Double.le_iff_of_value hs ht]
  linarith

/-- A written file is read with the same sample rate, channels and frames. Every sample is read at
its place to the precision of two bytes, and samples in order are read in order. -/
theorem decodeWave_quantizes {b : SampleBuffer Float} (h : b.Writable) :
    ∃ decoded : SampleBuffer Float, decodeWave (encodeWave b) = .ok decoded
      ∧ decoded.sampleRate = b.sampleRate ∧ decoded.check = .ok ()
      ∧ decoded.channels.length = b.channels.length ∧ decoded.frameCount = b.frameCount
      ∧ (∀ c frame s, b.sampleAt? c frame = some s →
          ∃ t, decoded.sampleAt? c frame = some t ∧ t.Quantizes s)
      ∧ ∀ c frame c' frame' s s' t t', b.sampleAt? c frame = some s →
          b.sampleAt? c' frame' = some s' → decoded.sampleAt? c frame = some t →
          decoded.sampleAt? c' frame' = some t' → s.toFloat ≤ s'.toFloat →
          t.toFloat ≤ t'.toFloat := by
  refine ⟨_, decodeWave_encodeWave h, rfl, SampleBuffer.check_mapSamples h.check,
    SampleBuffer.length_channels_mapSamples, SampleBuffer.frameCount_mapSamples, ?_, ?_⟩
  · intro c frame s hs
    refine ⟨s.quantized, ?_, s.quantizes_quantized⟩
    rw [SampleBuffer.sampleAt?_mapSamples, hs]
    rfl
  · intro c frame c' frame' s s' t t' hs hs' ht ht' hle
    rw [SampleBuffer.sampleAt?_mapSamples, hs] at ht
    rw [SampleBuffer.sampleAt?_mapSamples, hs'] at ht'
    obtain rfl := Option.some.inj ht
    obtain rfl := Option.some.inj ht'
    exact Sample.quantized_le hle

/-- One frame at full scale. -/
def fullScale : SampleBuffer Float := ⟨Scalar.ofNat 8000, [#[⟨0x3f800000⟩]]⟩

lemma writable_fullScale : fullScale.Writable where
  check := rfl
  channels := by decide
  sampleRate := ⟨8000, by norm_num, by norm_num, rfl⟩
  size := by decide

/-- Two channels of four frames, with samples of both signs and one that is no number. -/
def stereo : SampleBuffer Float where
  sampleRate := Scalar.ofNat 8000
  channels :=
    [#[⟨0x3f800000⟩, ⟨0xbf000000⟩, ⟨0x7fc00000⟩, ⟨0x3e800000⟩],
      #[⟨0xbf800000⟩, ⟨0x3f000000⟩, ⟨0xbe800000⟩, ⟨0x3f800000⟩]]

lemma writable_stereo : stereo.Writable where
  check := rfl
  channels := by decide
  sampleRate := ⟨8000, by norm_num, by norm_num, rfl⟩
  size := by decide

/-- Two channels are read as two channels: `1` and `-1` of the first frame, the silence for what is
no number, and the samples of the last frame, each to the precision of two bytes and in order. -/
theorem decodeWave_quantizes_stereo :
    ∃ decoded : SampleBuffer Float, decodeWave (encodeWave stereo) = .ok decoded
      ∧ decoded.sampleRate = Scalar.ofNat 8000 ∧ decoded.channels.length = 2
      ∧ decoded.frameCount = 4
      ∧ ∃ high low silence left right : Sample,
        decoded.sampleAt? 0 0 = some high ∧ high.Quantizes ⟨0x3f800000⟩
          ∧ decoded.sampleAt? 1 0 = some low ∧ low.Quantizes ⟨0xbf800000⟩
          ∧ decoded.sampleAt? 0 2 = some silence ∧ Double.value? silence.toFloat = some 0
          ∧ decoded.sampleAt? 0 3 = some left ∧ left.Quantizes ⟨0x3e800000⟩
          ∧ decoded.sampleAt? 1 3 = some right ∧ right.Quantizes ⟨0x3f800000⟩
          ∧ low.toFloat ≤ left.toFloat ∧ left.toFloat ≤ right.toFloat := by
  obtain ⟨decoded, hdecoded, hrate, -, hlength, hcount, hsamples, horder⟩ :=
    decodeWave_quantizes writable_stereo
  obtain ⟨high, hhigh, hqhigh⟩ := hsamples 0 0 _ rfl
  obtain ⟨low, hlow, hqlow⟩ := hsamples 1 0 _ rfl
  obtain ⟨silence, hsilence, hqsilence⟩ := hsamples 0 2 _ rfl
  obtain ⟨left, hleft, hqleft⟩ := hsamples 0 3 _ rfl
  obtain ⟨right, hright, hqright⟩ := hsamples 1 3 _ rfl
  exact ⟨decoded, hdecoded, hrate, hlength, hcount, high, low, silence, left, right, hhigh, hqhigh,
    hlow, hqlow, hsilence, hqsilence.silent (by decide), hleft, hqleft, hright, hqright,
    horder 1 0 0 3 _ _ _ _ rfl rfl hlow hleft (by decide),
    horder 0 3 1 3 _ _ _ _ rfl rfl hleft hright (by decide)⟩

end EndlessRemix
