import EndlessRemix.Proofs.Number.Storing
import EndlessRemix.Proofs.Wave.Chunks

/-!
# Integer samples

Integers of one to four bytes stand for fractions of full scale. What a file of them is decoded to
follows from the integers alone, in whichever way the format is stated and however long the blocks
are. With up to three bytes nothing is rounded, so a file that is written again with wider integers
is decoded to the same.
-/

namespace EndlessRemix

/-! ## Integers in a file -/

/-- The natural that some bytes of a file stand for, the least significant first. -/
def wordAt (file : Array UInt8) (width offset : ℕ) : ℕ :=
  ∑ i ∈ Finset.range width, (file[offset + i]?.getD 0).toNat * 256 ^ i

/-- The integer that some bytes of a file stand for. One byte counts from 128, more are in two's
complement. -/
def integerAt (file : Array UInt8) (width offset : ℕ) : ℤ :=
  if width = 1 then wordAt file width offset - 128
  else (BitVec.ofNat (8 * width) (wordAt file width offset)).toInt

lemma Word.ofBytes_eq_sum (bytes : List UInt8) :
    Word.ofBytes bytes
      = ∑ i ∈ Finset.range bytes.length, (bytes[i]?.getD 0).toNat * 256 ^ i := by
  induction bytes with
  | nil => rfl
  | cons b bytes ih =>
    rw [Word.ofBytes, ih, List.length_cons, Finset.sum_range_succ', Finset.mul_sum, Nat.add_comm]
    congr 1
    · refine Finset.sum_congr rfl fun i _ => ?_
      rw [List.getElem?_cons_succ, pow_succ]
      ring
    · rw [List.getElem?_cons_zero, pow_zero, Nat.mul_one]
      rfl

section

variable (file : Array UInt8) (width offset : ℕ)

lemma wordAt_lt : wordAt file width offset < 256 ^ width := by
  induction width with
  | zero => exact Nat.one_pos
  | succ width ih =>
    have hbyte : (file[offset + width]?.getD 0).toNat < 256 := UInt8.toNat_lt _
    rw [wordAt, Finset.sum_range_succ, ← wordAt, pow_succ']
    calc wordAt file width offset + (file[offset + width]?.getD 0).toNat * 256 ^ width
        < 256 ^ width + 255 * 256 ^ width :=
          Nat.add_lt_add_of_lt_of_le ih (Nat.mul_le_mul_right _ (by omega))
      _ = 256 * 256 ^ width := by ring

/-- What the decoder makes of a word is the integer. -/
lemma level_wordAt : SampleEncoding.level width (wordAt file width offset)
    = integerAt file width offset := by
  have hlt : wordAt file width offset < 2 ^ (8 * width) := by
    rw [pow_mul]
    exact wordAt_lt file width offset
  have hpow : Nat.pow 256 width = 2 ^ (8 * width) := by
    rw [Nat.pow_eq, pow_mul]
    rfl
  rw [SampleEncoding.level, integerAt, Word.signed, hpow, BitVec.toInt_eq_toNat_cond,
    BitVec.toNat_ofNat, Nat.mod_eq_of_lt hlt]

variable {file width offset}

/-- Bytes that are there are read as their word. -/
lemma readWord_eq_wordAt (h : offset + width ≤ file.size) :
    readWord file offset width = .ok (wordAt file width offset) := by
  have hlength : (file.extract offset (offset + width)).toList.length = width := by
    rw [Array.length_toList, Array.size_extract, min_eq_left h, Nat.add_sub_cancel_left]
  rw [readWord, readBytes, if_pos h]
  show Except.ok (Word.ofBytes _) = _
  rw [Word.ofBytes_eq_sum, hlength]
  congr 1
  refine Finset.sum_congr rfl fun i hi => ?_
  rw [Finset.mem_range] at hi
  rw [Array.getElem?_toList, Array.getElem?_extract, if_pos (by omega)]

/-- An integer lies between the ends of the scale. -/
lemma integerAt_mem (hwidth : 1 ≤ width) :
    -2 ^ (8 * width - 1) ≤ integerAt file width offset
      ∧ integerAt file width offset < 2 ^ (8 * width - 1) := by
  rw [integerAt]
  split_ifs with hone
  · subst hone
    have hlt := wordAt_lt file 1 offset
    norm_num at hlt ⊢
    omega
  · exact ⟨BitVec.le_toInt _, BitVec.toInt_lt⟩

end

/-! ## Layouts -/

/-- Where the integer samples of a file lie: frames of `stride` bytes from the start of the data on,
and at the start of each frame `width` bytes for every channel. -/
structure IntegerLayout where
  width : ℕ
  channels : ℕ
  rate : ℕ
  stride : ℕ
  data : ChunkPlace
  width_mem : 1 ≤ width ∧ width ≤ 4
  channels_pos : 0 < channels
  rate_pos : 0 < rate
  frame_le : channels * width ≤ stride

namespace IntegerLayout

variable {l : IntegerLayout} {file : Array UInt8} {place : ChunkPlace} {c frame : ℕ}

/-- The data has as many frames as whole blocks. -/
def frames (l : IntegerLayout) : ℕ := l.data.length / l.stride

/-- The integer of a channel in a frame. -/
def integer (l : IntegerLayout) (file : Array UInt8) (c frame : ℕ) : ℤ :=
  integerAt file l.width (l.data.start + frame * l.stride + c * l.width)

/-- A format chunk states the layout. Its encoding is that of integers, or refers to an extension
that says so, and it may leave open how many bytes a frame takes if there are no gaps. -/
structure InFormat (l : IntegerLayout) (file : Array UInt8) (place : ChunkPlace) : Prop where
  encoding : wordAt file 2 place.start = WaveFormat.integerEncoding
    ∨ wordAt file 2 place.start = WaveFormat.extensibleEncoding ∧ 26 ≤ place.length
      ∧ wordAt file 2 (place.start + 24) = WaveFormat.integerEncoding
  channels : wordAt file 2 (place.start + 2) = l.channels
  rate : wordAt file 4 (place.start + 4) = l.rate
  stride : wordAt file 2 (place.start + 12) = l.stride
    ∨ wordAt file 2 (place.start + 12) = 0 ∧ l.stride = l.channels * l.width
  bits : wordAt file 2 (place.start + 14) = 8 * l.width

/-- A sound file has this layout: its format chunks are long enough to be read, the last of them
states the layout, and the last data chunk is the data. -/
def InFile (l : IntegerLayout) (file : Array UInt8) : Prop :=
  ∃ places place, chunkPlaces file = .ok places
    ∧ (∀ p ∈ places, p.tag = formatTag → 16 ≤ p.length)
    ∧ lastPlace? formatTag places = some place ∧ lastPlace? dataTag places = some l.data
    ∧ l.InFormat file place

/-! ## Decoding -/

/-- The format chunk is read as what it states. -/
lemma InFormat.read_eq (h : l.InFormat file place) (hin : place.InFile file)
    (hlong : 16 ≤ place.length) : WaveFormat.read file place
      = .ok ⟨WaveFormat.integerEncoding, l.channels, l.rate, wordAt file 2 (place.start + 12),
          8 * l.width⟩ := by
  unfold ChunkPlace.InFile at hin
  have hword : ∀ k width, k + width ≤ place.length →
      readWord file (place.start + k) width = .ok (wordAt file width (place.start + k)) :=
    fun k width hk => readWord_eq_wordAt (by omega)
  have houter := hword 0 2 (by omega)
  rw [Nat.add_zero] at houter
  rw [WaveFormat.read, if_neg (not_lt.mpr hlong), houter, hword 2 2 (by omega),
    hword 4 4 (by omega), hword 12 2 (by omega), hword 14 2 (by omega), h.channels, h.rate, h.bits]
  rcases h.encoding with hplain | ⟨hext, hreach, hinner⟩
  · rw [hplain]
    -- the encoding of integers refers to no extension, however long the chunk is
    rfl
  · rw [hext, hword 24 2 (by omega), hinner]
    exact if_pos ⟨rfl, hreach⟩

/-- The grid on which the samples are read. -/
def grid (l : IntegerLayout) : SampleGrid := ⟨.integer l.width, l.data.start, l.stride, l.frames⟩

lemma grid_fits (l : IntegerLayout) : l.grid.Fits l.channels l.data :=
  ⟨rfl, l.frame_le, Nat.div_mul_le_self _ _⟩

/-- The format that is read gives the grid. -/
lemma grid_eq {align : ℕ} (h : align = l.stride ∨ align = 0 ∧ l.stride = l.channels * l.width) :
    WaveFormat.grid ⟨WaveFormat.integerEncoding, l.channels, l.rate, align, 8 * l.width⟩ l.data
      = .ok l.grid := by
  have hchannels := l.channels_pos
  have hrate := l.rate_pos
  have hframe := l.frame_le
  obtain ⟨hlow, hhigh⟩ := l.width_mem
  have hpos : 0 < l.channels * l.width := by positivity
  have hnonzero : ¬(l.channels = 0 ∨ l.rate = 0) := by omega
  have hencoding : SampleEncoding.of? WaveFormat.integerEncoding (8 * l.width)
      = some (.integer l.width) := by
    rw [SampleEncoding.of?, if_pos ⟨rfl, by omega⟩, Nat.mul_div_cancel_left _ (by norm_num)]
  -- frames without gaps may be stated or left open
  have halign : (if align = 0 then l.width * l.channels else align) = l.stride := by
    rw [Nat.mul_comm]
    split_ifs <;> omega
  have hsmall : ¬l.stride < l.width * l.channels := by
    rw [Nat.mul_comm]
    omega
  rw [WaveFormat.grid, if_neg hnonzero, hencoding]
  simp only [SampleEncoding.width, halign]
  rw [if_neg hsmall]
  rfl

/-- The sample that an integer is decoded to. -/
def sample (l : IntegerLayout) (file : Array UInt8) (c frame : ℕ) : Sample :=
  Sample.ofDatum (SampleEncoding.fraction l.width (l.integer file c frame))

/-- Within the data the samples are read. -/
lemma read_eq (hin : l.data.InFile file) (hc : c < l.channels) (hframe : frame < l.frames) :
    l.grid.read file c frame = .ok (l.sample file c frame) := by
  rw [SampleGrid.read, readWord_eq_wordAt (l.grid_fits.offset_le hin hc hframe)]
  show Except.ok (Sample.ofDatum (SampleEncoding.fraction l.width
    (SampleEncoding.level l.width (wordAt file l.width _)))) = _
  rw [level_wordAt]
  rfl

/-- The buffer of all samples. -/
def buffer (l : IntegerLayout) (file : Array UInt8) : SampleBuffer Float where
  sampleRate := Scalar.ofNat l.rate
  channels := (List.range l.channels).map fun c =>
    ((List.range l.frames).map (l.sample file c)).toArray

/-- Within the data the channels are read. -/
lemma channels_eq (hin : l.data.InFile file) :
    (List.range l.channels).mapM (l.grid.channel file) = .ok (l.buffer file).channels := by
  refine mapM_eq_ok_map fun c hc => ?_
  have hrow : (List.range l.frames).mapM (l.grid.read file c)
      = .ok ((List.range l.frames).map (l.sample file c)) :=
    mapM_eq_ok_map fun frame hframe => read_eq hin (List.mem_range.mp hc) (List.mem_range.mp hframe)
  show ((List.range l.frames).mapM (l.grid.read file c)).map List.toArray = _
  rw [hrow]
  rfl

/-- A file of integer samples is decoded to the buffer of them. -/
theorem InFile.decodeWave_eq (h : l.InFile file) : decodeWave file = .ok (l.buffer file) := by
  obtain ⟨places, place, hplaces, hlong, hplace, hdata, hstated⟩ := h
  have hin := (sound_chunkPlaces file).of_ok hplaces
  obtain ⟨hmem, htag⟩ := List.mem_filter.mp (List.mem_of_getLast? hplace)
  have hread := hstated.read_eq (hin place hmem) (hlong place hmem (of_decide_eq_true htag))
  rw [decodeWave_of_last hplaces hlong hplace hread hdata, grid_eq hstated.stride, ok_bind,
    channels_eq (hin l.data (mem_of_lastPlace? hdata))]
  rfl

lemma sampleAt?_buffer (hc : c < l.channels) (hframe : frame < l.frames) :
    (l.buffer file).sampleAt? c frame = some (l.sample file c frame) := by
  refine SampleBuffer.sampleAt?_eq_some.mpr
    ⟨((List.range l.frames).map (l.sample file c)).toArray, ?_, ?_⟩
  · exact (List.getElem?_map ..).trans (by rw [List.getElem?_range hc]; rfl)
  · rw [List.getElem?_toArray, List.getElem?_map, List.getElem?_range hframe]
    rfl

/-- Files with the same samples are decoded to the same buffer. -/
lemma buffer_congr {l' : IntegerLayout} {file' : Array UInt8} (hchannels : l'.channels = l.channels)
    (hrate : l'.rate = l.rate) (hframes : l'.frames = l.frames)
    (h : ∀ c < l.channels, ∀ frame < l.frames, l'.sample file' c frame = l.sample file c frame) :
    l'.buffer file' = l.buffer file := by
  rw [buffer, buffer, hchannels, hrate, hframes]
  congr 1
  refine List.map_congr_left fun c hc => ?_
  congr 1
  exact List.map_congr_left fun frame hframe =>
    h c (List.mem_range.mp hc) frame (List.mem_range.mp hframe)

/-- The check of the buffer is passed, and it has the frames of the data. -/
lemma check_buffer (l : IntegerLayout) (file : Array UInt8) :
    (l.buffer file).check = .ok () ∧ (l.buffer file).frameCount = l.frames := by
  obtain ⟨n, hn⟩ := Nat.exists_eq_succ_of_ne_zero l.channels_pos.ne'
  have hframes : (l.buffer file).frameCount = l.frames := by
    rw [SampleBuffer.frameCount, buffer, hn, List.range_succ_eq_map]
    simp
  refine ⟨check_eq_ok.mpr ⟨?_, ?_⟩, hframes⟩
  · simp [buffer, hn]
  · intro channel hmem
    obtain ⟨c, -, rfl⟩ := List.mem_map.mp hmem
    rw [hframes]
    simp

end IntegerLayout

/-! ## Fractions of full scale -/

namespace Sample

variable {width : ℕ} {k : ℤ}

/-- With up to three bytes every integer is stored exactly. -/
lemma value?_ofFraction (hwidth : 1 ≤ width) (hnarrow : width ≤ 3)
    (hk : k.natAbs ≤ 2 ^ (8 * width - 1)) :
    (ofDatum (SampleEncoding.fraction width k)).datum.value?
      = some ((k : ℚ) / 2 ^ (8 * width - 1)) := by
  have hplaces : 2 ^ (8 * width - 1) ≤ 2 ^ 23 := Nat.pow_le_pow_right (by norm_num) (by omega)
  rw [← SampleEncoding.value?_fraction hwidth]
  exact value?_ofDatum (by omega) (by omega) (by omega) _

/-- With up to four bytes it is stored as the nearest sample. -/
theorem nearest_ofFraction (hwidth : 1 ≤ width) (hwide : width ≤ 4)
    (hk : k.natAbs ≤ 2 ^ (8 * width - 1)) :
    (ofDatum (SampleEncoding.fraction width k)).Nearest ((k : ℚ) / 2 ^ (8 * width - 1)) := by
  have hvalue := SampleEncoding.value?_fraction hwidth k
  rcases Nat.eq_zero_or_pos k.natAbs with hzero | hpos
  · -- zero has no leading bit to count from, but is exact
    refine nearest_of_value ?_
    rw [← hvalue]
    exact value?_ofDatum (by omega) (by omega) (by omega) _
  · have hlog : k.natAbs.log2 < 8 * width := by
      rw [Nat.log2_lt hpos.ne']
      exact hk.trans_lt (Nat.pow_lt_pow_right (by norm_num) (by omega))
    rw [← Option.some.inj hvalue]
    exact nearest_ofDatum hpos (by omega) (by omega) _

/-- An integer of up to three bytes is the same sample with more bytes, if as many zeros are put
behind it. -/
theorem ofFraction_widen {width' : ℕ} (hwidth : 1 ≤ width) (hlt : width < width') (hwide : width' ≤ 4)
    (hk : k.natAbs ≤ 2 ^ (8 * width - 1)) :
    ofDatum (SampleEncoding.fraction width' (k * 2 ^ (8 * (width' - width))))
      = ofDatum (SampleEncoding.fraction width k) := by
  obtain ⟨n, rfl⟩ : ∃ n, width' = width + n := ⟨width' - width, by omega⟩
  have hplaces : 2 ^ (8 * width - 1) ≤ 2 ^ 23 := Nat.pow_le_pow_right (by norm_num) (by omega)
  have hpos : (0 : ℤ) < 2 ^ (8 * n) := by positivity
  have hsign : k * 2 ^ (8 * n) < 0 ↔ k < 0 := by
    rw [mul_neg_iff]
    omega
  have hsize : (k * 2 ^ (8 * n)).natAbs = k.natAbs * 2 ^ (8 * n) := by
    rw [Int.natAbs_mul, Int.natAbs_pow]
    rfl
  rw [Nat.add_sub_cancel_left, SampleEncoding.fraction, SampleEncoding.fraction, hsize,
    decide_eq_decide.mpr hsign]
  refine ofDatum_congr (by omega) (by omega) (by omega) ?_ _
  have hshift : (1 : ℤ) - 8 * width = (8 * n : ℕ) + (1 - 8 * (width + n : ℕ)) := by
    push_cast
    ring
  rw [hshift, zpow_add₀ two_ne_zero, zpow_natCast]
  push_cast
  ring

end Sample

namespace IntegerLayout

variable {l l' : IntegerLayout} {file file' : Array UInt8}

/-- The fraction of full scale that the integer of a channel in a frame stands for. -/
def fraction (l : IntegerLayout) (file : Array UInt8) (c frame : ℕ) : ℚ :=
  (l.integer file c frame : ℚ) / 2 ^ (8 * l.width - 1)

lemma natAbs_integer_le (l : IntegerLayout) (file : Array UInt8) (c frame : ℕ) :
    (l.integer file c frame).natAbs ≤ 2 ^ (8 * l.width - 1) := by
  have hmem : -2 ^ (8 * l.width - 1) ≤ l.integer file c frame
      ∧ l.integer file c frame < 2 ^ (8 * l.width - 1) := integerAt_mem l.width_mem.1
  zify
  exact abs_le.mpr ⟨hmem.1, hmem.2.le⟩

lemma abs_fraction_le (l : IntegerLayout) (file : Array UInt8) (c frame : ℕ) :
    |l.fraction file c frame| ≤ 1 := by
  have hle : (|l.integer file c frame| : ℤ) ≤ 2 ^ (8 * l.width - 1) := by
    rw [Int.abs_eq_natAbs]
    exact_mod_cast l.natAbs_integer_le file c frame
  rw [fraction, abs_div, abs_of_pos (by positivity : (0 : ℚ) < 2 ^ (8 * l.width - 1))]
  refine div_le_one_of_le₀ ?_ (by positivity)
  exact_mod_cast hle

end IntegerLayout

/-- What a file of integer samples is decoded to, for every width of one to four bytes, every number
of channels and frames, a plain or an extensible format, and every block align with room for a
frame. Each sample is the nearest one to its integer as a fraction of full scale, exactly that
fraction with up to three bytes, and lies between −1 and 1. A file with wider integers, each with as
many zeros behind it, is decoded to the same buffer. -/
theorem decodeWave_integers {l : IntegerLayout} {file : Array UInt8} (h : l.InFile file) :
    ∃ b : SampleBuffer Float, decodeWave file = .ok b
      ∧ b.sampleRate = Scalar.ofNat l.rate ∧ b.check = .ok () ∧ b.channels.length = l.channels
      ∧ b.frameCount = l.frames
      ∧ (∀ c < l.channels, ∀ frame < l.frames, ∃ s q, b.sampleAt? c frame = some s
          ∧ Double.value? s.toFloat = some q ∧ s.Nearest (l.fraction file c frame)
          ∧ (l.width ≤ 3 → q = l.fraction file c frame) ∧ -1 ≤ q ∧ q ≤ 1)
      ∧ ∀ (l' : IntegerLayout) (file' : Array UInt8), l'.InFile file' →
          l'.channels = l.channels → l'.rate = l.rate → l'.frames = l.frames → l.width < l'.width →
          (∀ c < l.channels, ∀ frame < l.frames,
            l'.integer file' c frame
              = l.integer file c frame * 2 ^ (8 * l'.width - 8 * l.width)) →
          decodeWave file' = .ok b := by
  obtain ⟨hwidth, hwide⟩ := l.width_mem
  refine ⟨l.buffer file, h.decodeWave_eq, rfl, (l.check_buffer file).1, ?_, (l.check_buffer file).2,
    ?_, ?_⟩
  · exact (List.length_map _).trans List.length_range
  · intro c hc frame hframe
    have hk := l.natAbs_integer_le file c frame
    have hnearest : (l.sample file c frame).Nearest (l.fraction file c frame) :=
      Sample.nearest_ofFraction hwidth hwide hk
    have ⟨q, hq, _⟩ := hnearest
    have hunit := abs_le.mp (l.abs_fraction_le file c frame)
    refine ⟨l.sample file c frame, q, IntegerLayout.sampleAt?_buffer hc hframe, ?_, hnearest, ?_,
      hnearest.mem_unit hq hunit.1 hunit.2⟩
    · rw [Sample.value?_toFloat]
      exact hq
    · intro hnarrow
      exact Option.some.inj (hq.symm.trans (Sample.value?_ofFraction hwidth hnarrow hk))
  · intro l' file' h' hchannels hrate hframes hlt hwiden
    rw [h'.decodeWave_eq]
    congr 1
    refine IntegerLayout.buffer_congr hchannels hrate hframes fun c hc frame hframe => ?_
    rw [IntegerLayout.sample, hwiden c hc frame hframe, ← Nat.mul_sub]
    exact Sample.ofFraction_widen hwidth hlt l'.width_mem.2 (l.natAbs_integer_le file c frame)

/-! ## A file with wider integers -/

/-- Three frames of one byte each, from the bottom of the scale to the top. -/
def byteRamp : List Chunk :=
  [⟨formatTag, WaveFormat.body ⟨WaveFormat.integerEncoding, 1, 8000, 1, 8⟩ 8000⟩,
    ⟨dataTag, [0, 0x80, 0xff]⟩]

/-- The same frames with two bytes for a sample, in blocks of four bytes, behind an extensible
format. -/
def wordRamp : List Chunk :=
  [⟨formatTag, WaveFormat.body ⟨WaveFormat.extensibleEncoding, 1, 8000, 4, 16⟩ 32000
      ++ [22, 0, 16, 0, 4, 0, 0, 0] ++ Word.toBytes 2 WaveFormat.integerEncoding
      ++ [0, 0, 0, 0, 0x10, 0, 0x80, 0, 0, 0xaa, 0, 0x38, 0x9b, 0x71]⟩,
    ⟨dataTag, [0, 0x80, 1, 1, 0, 0, 1, 1, 0, 0x7f, 1, 1]⟩]

def byteLayout : IntegerLayout where
  width := 1
  channels := 1
  rate := 8000
  stride := 1
  data := ⟨dataTag, 44, 3⟩
  width_mem := by decide
  channels_pos := by decide
  rate_pos := by decide
  frame_le := by decide

def wordLayout : IntegerLayout where
  width := 2
  channels := 1
  rate := 8000
  stride := 4
  data := ⟨dataTag, 68, 12⟩
  width_mem := by decide
  channels_pos := by decide
  rate_pos := by decide
  frame_le := by decide

lemma inFile_byteRamp : byteLayout.InFile (waveFile byteRamp).toArray := by
  refine ⟨placesOf 12 byteRamp, ⟨formatTag, 20, 16⟩, chunkPlaces_eq _ ?_, by decide, rfl, rfl,
    .inl (by decide), by decide, by decide, .inl (by decide), by decide⟩
  intro c hc
  rcases List.mem_pair.mp hc with rfl | rfl
  · exact ⟨rfl, by decide⟩
  · exact ⟨rfl, by decide⟩

lemma inFile_wordRamp : wordLayout.InFile (waveFile wordRamp).toArray := by
  refine ⟨placesOf 12 wordRamp, ⟨formatTag, 20, 40⟩, chunkPlaces_eq _ ?_, by decide, rfl, rfl,
    .inr ⟨by decide, by decide, by decide⟩, by decide, by decide, .inl (by decide), by decide⟩
  intro c hc
  rcases List.mem_pair.mp hc with rfl | rfl
  · exact ⟨rfl, by decide⟩
  · exact ⟨rfl, by decide⟩

/-- Both files are decoded to the same buffer, which begins at the bottom of the scale. -/
theorem decodeWave_integers_ramp : ∃ b : SampleBuffer Float,
    decodeWave (waveFile byteRamp).toArray = .ok b ∧ decodeWave (waveFile wordRamp).toArray = .ok b
      ∧ b.frameCount = 3
      ∧ ∃ s, b.sampleAt? 0 0 = some s ∧ Double.value? s.toFloat = some (-1) := by
  obtain ⟨b, hb, -, -, -, hframes, hsamples, hwider⟩ := decodeWave_integers inFile_byteRamp
  have hintegers : ∀ c < byteLayout.channels, ∀ frame < byteLayout.frames,
      wordLayout.integer (waveFile wordRamp).toArray c frame
        = byteLayout.integer (waveFile byteRamp).toArray c frame * 2 ^ 8 := by
    decide
  have hbottom : byteLayout.integer (waveFile byteRamp).toArray 0 0 = -128 := by decide
  obtain ⟨s, q, hs, hq, -, hexact, -⟩ := hsamples 0 (by decide) 0 (by decide)
  refine ⟨b, hb, hwider wordLayout _ inFile_wordRamp rfl rfl rfl (by decide) hintegers, hframes, s,
    hs, ?_⟩
  rw [hq, hexact (by decide), IntegerLayout.fraction, hbottom]
  norm_num [byteLayout]

end EndlessRemix
