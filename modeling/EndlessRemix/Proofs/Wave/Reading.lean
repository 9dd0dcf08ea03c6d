import EndlessRemix.Proofs.Except
import EndlessRemix.Proofs.Number.Integer
import EndlessRemix.Wave.Decode

/-!
# Reading sound files

A decoder that is given any bytes must not read beyond their end. `Sound` says of a part of it that
it gives what it should or reports what is wrong with the file, and so never the fault of a read
beyond the end. The parts are put together by the rules of the monad.
-/

namespace EndlessRemix

/-! ## Sound readings -/

/-- A reading gives what is asked for, or the fault is the file's. -/
def Sound {α : Type} (reading : Except WaveFault α) (post : α → Prop) : Prop :=
  match reading with
  | .ok a => post a
  | .error fault => fault.kind? = some .input

namespace Sound

variable {α β : Type} {reading : Except WaveFault α} {p q : α → Prop}

theorem ok {a : α} (h : p a) : Sound (.ok a) p := h

/-- A reading that succeeds gives what is asked for. -/
theorem of_ok {a : α} (h : Sound reading p) (ha : reading = .ok a) : p a := by
  rw [ha] at h
  exact h

/-- Less can be asked for. -/
theorem mono (h : Sound reading p) (hpq : ∀ a, p a → q a) : Sound reading q := by
  cases reading with
  | ok a => exact hpq a h
  | error fault => exact h

/-- What follows a reading may rely on what it gave. -/
theorem bind_eq {next : α → Except WaveFault β} {r : β → Prop} (h : Sound reading p)
    (hnext : ∀ a, reading = .ok a → p a → Sound (next a) r) : Sound (reading >>= next) r := by
  cases reading with
  | ok a => exact hnext a rfl h
  | error fault => exact h

theorem bind {next : α → Except WaveFault β} {r : β → Prop} (h : Sound reading p)
    (hnext : ∀ a, p a → Sound (next a) r) : Sound (reading >>= next) r :=
  h.bind_eq fun a _ => hnext a

theorem map {f : α → β} {r : β → Prop} (h : Sound reading p) (hf : ∀ a, p a → r (f a)) :
    Sound (reading.map f) r := by
  cases reading with
  | ok a => exact hf a h
  | error fault => exact h

/-- A row of readings gives one result for each. -/
theorem mapM {f : β → Except WaveFault α} {xs : List β} (h : ∀ x ∈ xs, Sound (f x) p) :
    Sound (xs.mapM f) fun as => as.length = xs.length ∧ ∀ a ∈ as, p a := by
  induction xs with
  | nil => exact ⟨rfl, by simp⟩
  | cons x xs ih =>
    rw [List.mapM_cons]
    refine (h x (by simp)).bind fun a ha => ?_
    refine (ih fun y hy => h y (by simp [hy])).bind fun as has => ?_
    refine ⟨by rw [List.length_cons, has.1, List.length_cons], ?_⟩
    intro b hb
    rcases List.mem_cons.mp hb with rfl | hb
    · exact ha
    · exact has.2 b hb

end Sound

/-! ## Bytes and words -/

/-- Bytes that are there can be read. -/
theorem sound_readBytes {file : Array UInt8} {offset count : ℕ}
    (h : offset + count ≤ file.size) :
    Sound (readBytes file offset count) fun bytes => bytes.length = count := by
  rw [readBytes, if_pos h]
  apply Sound.ok
  rw [Array.length_toList, Array.size_extract, min_eq_left h, Nat.add_sub_cancel_left]

/-- Bytes stand for a number of as many digits. -/
lemma Word.ofBytes_lt (bytes : List UInt8) : Word.ofBytes bytes < 256 ^ bytes.length := by
  induction bytes with
  | nil => exact Nat.one_pos
  | cons b bytes ih =>
    have hb : b.toNat < 256 := b.toNat_lt
    rw [Word.ofBytes, List.length_cons, pow_succ]
    omega

/-- A word that is there can be read. -/
theorem sound_readWord {file : Array UInt8} {offset width : ℕ} (h : offset + width ≤ file.size) :
    Sound (readWord file offset width) fun word => word < 256 ^ width :=
  (sound_readBytes h).map fun bytes hbytes => hbytes ▸ Word.ofBytes_lt bytes

/-! ## Chunks -/

/-- A chunk's body is part of the file. -/
def ChunkPlace.InFile (place : ChunkPlace) (file : Array UInt8) : Prop :=
  place.start + place.length ≤ file.size

/-- The chunks from any offset on are found. They have only bytes that are there, and no more than
four bytes can count. -/
theorem sound_chunkPlacesFrom (file : Array UInt8) (offset : ℕ) :
    Sound (chunkPlacesFrom file offset) fun places =>
      ∀ place ∈ places, place.InFile file ∧ place.length < 2 ^ 32 := by
  induction offset using chunkPlacesFrom.induct file with
  | case1 offset h ih =>
    rw [chunkPlacesFrom, if_pos h]
    refine (sound_readBytes (by omega)).bind fun tag _ => ?_
    refine (sound_readWord (by omega)).bind fun size hsize => ?_
    refine (ih size).bind fun rest hrest => ?_
    apply Sound.ok
    intro place hplace
    rcases List.mem_cons.mp hplace with rfl | hplace
    · -- what a chunk claims is cut at the end of the file
      constructor
      · show offset + 8 + min size (file.size - (offset + 8)) ≤ file.size
        omega
      · exact lt_of_le_of_lt (min_le_left _ _) (lt_of_lt_of_eq hsize (by norm_num))
    · exact hrest place hplace
  | case2 offset h =>
    rw [chunkPlacesFrom, if_neg h]
    exact fun place hplace => absurd hplace List.not_mem_nil

/-- The chunks of any bytes are found, unless the marks of the header are missing. -/
theorem sound_counts (file : Array UInt8) :
    Sound (chunkPlaces file) fun places =>
      ∀ place ∈ places, place.InFile file ∧ place.length < 2 ^ 32 := by
  unfold chunkPlaces
  by_cases hsize : file.size < 12
  · rw [if_pos hsize]
    rfl
  · rw [if_neg hsize]
    refine (sound_readBytes (by omega)).bind fun riff _ => ?_
    refine (sound_readBytes (by omega)).bind fun wave _ => ?_
    by_cases htags : riff ≠ riffTag ∨ wave ≠ waveTag
    · rw [if_pos htags]
      rfl
    · rw [if_neg htags]
      exact sound_chunkPlacesFrom file 12

theorem sound_chunkPlaces (file : Array UInt8) :
    Sound (chunkPlaces file) fun places => ∀ place ∈ places, place.InFile file :=
  (sound_counts file).mono fun _ h place hplace => (h place hplace).1

/-- The last chunk of a name is one of the chunks. -/
lemma mem_of_lastPlace? {tag : List UInt8} {places : List ChunkPlace} {place : ChunkPlace}
    (h : lastPlace? tag places = some place) : place ∈ places :=
  (List.mem_filter.mp (List.mem_of_getLast? h)).1

/-! ## The format -/

/-- A format chunk is read within its bytes, or is too short. -/
theorem WaveFormat.sound_fields {file : Array UInt8} {place : ChunkPlace} (h : place.InFile file) :
    Sound (WaveFormat.read file place) fun format =>
      format.channels < 2 ^ 16 ∧ format.sampleRate < 2 ^ 32 := by
  unfold ChunkPlace.InFile at h
  unfold WaveFormat.read
  by_cases hshort : place.length < 16
  · rw [if_pos hshort]
    rfl
  · rw [if_neg hshort]
    refine (sound_readWord (by omega)).bind fun outer _ => ?_
    have hfields : ∀ encoding : ℕ, Sound (do
        let channels ← readWord file (place.start + 2) 2
        let sampleRate ← readWord file (place.start + 4) 4
        let blockAlign ← readWord file (place.start + 12) 2
        let bits ← readWord file (place.start + 14) 2
        return { encoding, channels, sampleRate, blockAlign, bits })
        fun format : WaveFormat => format.channels < 2 ^ 16 ∧ format.sampleRate < 2 ^ 32 := by
      intro encoding
      refine (sound_readWord (by omega)).bind fun channels hchannels => ?_
      refine (sound_readWord (by omega)).bind fun sampleRate hrate => ?_
      refine (sound_readWord (by omega)).bind fun blockAlign _ => ?_
      refine (sound_readWord (by omega)).bind fun bits _ => ?_
      exact ⟨hchannels, hrate⟩
    by_cases hext : outer = extensibleEncoding ∧ 26 ≤ place.length
    · -- the real encoding is read where the chunk was seen to reach
      rw [if_pos hext]
      exact (sound_readWord (by omega)).bind fun encoding _ => hfields encoding
    · rw [if_neg hext]
      exact hfields outer

theorem WaveFormat.sound_read {file : Array UInt8} {place : ChunkPlace} (h : place.InFile file) :
    Sound (WaveFormat.read file place) fun format => format.sampleRate < 2 ^ 32 :=
  (WaveFormat.sound_fields h).mono fun _ hfields => hfields.2

/-- A sample takes a whole number of bytes. -/
lemma SampleEncoding.width_of? {encoding bits : ℕ} {e : SampleEncoding}
    (h : SampleEncoding.of? encoding bits = some e) : bits = 8 * e.width := by
  unfold SampleEncoding.of? at h
  split_ifs at h with hint hsingle hdouble
  · obtain rfl := Option.some.inj h
    show bits = 8 * (bits / 8)
    omega
  · obtain rfl := Option.some.inj h
    exact hsingle.2
  · obtain rfl := Option.some.inj h
    exact hdouble.2

/-! ## The samples -/

/-- The samples of `channels` channels fit into the blocks of the grid, and the blocks into the
data. -/
structure SampleGrid.Fits (g : SampleGrid) (channels : ℕ) (data : ChunkPlace) : Prop where
  start_eq : g.start = data.start
  frame_le : channels * g.encoding.width ≤ g.blockAlign
  frames_le : g.frames * g.blockAlign ≤ data.length

/-- A format is refused for all data alike, or it has blocks with room for the samples of a frame, and
the data as many frames as whole blocks. -/
lemma WaveFormat.grid_cases (f : WaveFormat) :
    (∃ fault : WaveFault, fault.kind? = some .input ∧ ∀ data, f.grid data = .error fault)
      ∨ ∃ (encoding : SampleEncoding) (blockAlign : ℕ), 0 < f.channels ∧ 0 < f.sampleRate
          ∧ SampleEncoding.of? f.encoding f.bits = some encoding
          ∧ f.channels * encoding.width ≤ blockAlign
          ∧ ∀ data, f.grid data
              = .ok ⟨encoding, data.start, blockAlign, data.length / blockAlign⟩ := by
  unfold WaveFormat.grid
  by_cases hzero : f.channels = 0 ∨ f.sampleRate = 0
  · exact .inl ⟨.zeroChannelsOrRate, rfl, fun _ => if_pos hzero⟩
  · simp only [if_neg hzero]
    cases SampleEncoding.of? f.encoding f.bits with
    | none => exact .inl ⟨.unsupported f.encoding f.bits, rfl, fun _ => rfl⟩
    | some encoding =>
      dsimp only
      by_cases hsmall : (if f.blockAlign = 0 then encoding.width * f.channels else f.blockAlign)
          < encoding.width * f.channels
      · exact .inl ⟨_, rfl, fun _ => if_pos hsmall⟩
      · refine .inr ⟨encoding, _, by omega, by omega, rfl, ?_, fun _ => if_neg hsmall⟩
        rw [Nat.mul_comm]
        exact not_lt.mp hsmall

/-- The grid of a format fits into the data, unless the format cannot be read. -/
theorem WaveFormat.sound_grid (f : WaveFormat) (data : ChunkPlace) :
    Sound (f.grid data) fun g => 0 < f.channels ∧ 0 < f.sampleRate
      ∧ SampleEncoding.of? f.encoding f.bits = some g.encoding ∧ g.Fits f.channels data := by
  rcases f.grid_cases with ⟨fault, hkind, hgrid⟩
    | ⟨encoding, blockAlign, hchannels, hrate, hencoding, hframe, hgrid⟩
  · rw [hgrid]
    exact hkind
  · rw [hgrid]
    exact ⟨hchannels, hrate, hencoding, rfl, hframe, Nat.div_mul_le_self _ _⟩

namespace SampleGrid

variable {g : SampleGrid} {channels : ℕ} {data : ChunkPlace} {file : Array UInt8}

/-- The samples take no more bytes than the data has. -/
lemma Fits.bytes_le (h : g.Fits channels data) :
    channels * g.frames * g.encoding.width ≤ data.length := by
  calc channels * g.frames * g.encoding.width
      = g.frames * (channels * g.encoding.width) := by ring
    _ ≤ g.frames * g.blockAlign := Nat.mul_le_mul_left _ h.frame_le
    _ ≤ data.length := h.frames_le

/-- Every sample of the grid is part of the file. -/
lemma Fits.offset_le (h : g.Fits channels data) (hdata : data.InFile file) {channel frame : ℕ}
    (hchannel : channel < channels) (hframe : frame < g.frames) :
    g.start + frame * g.blockAlign + channel * g.encoding.width + g.encoding.width
      ≤ file.size := by
  have hin : channel * g.encoding.width + g.encoding.width ≤ g.blockAlign := by
    calc channel * g.encoding.width + g.encoding.width
        = (channel + 1) * g.encoding.width := by ring
      _ ≤ channels * g.encoding.width := Nat.mul_le_mul_right _ hchannel
      _ ≤ g.blockAlign := h.frame_le
  have hblock : frame * g.blockAlign + g.blockAlign ≤ data.length := by
    calc frame * g.blockAlign + g.blockAlign = (frame + 1) * g.blockAlign := by ring
      _ ≤ g.frames * g.blockAlign := Nat.mul_le_mul_right _ hframe
      _ ≤ data.length := h.frames_le
  have hstart := h.start_eq
  unfold ChunkPlace.InFile at hdata
  omega

/-- All samples of a channel can be read. -/
theorem sound_channel (h : g.Fits channels data) (hdata : data.InFile file) {channel : ℕ}
    (hchannel : channel < channels) :
    Sound (g.channel file channel) fun samples => samples.size = g.frames := by
  have hsamples : Sound ((List.range g.frames).mapM (g.read file channel)) fun samples =>
      samples.length = (List.range g.frames).length ∧ ∀ sample ∈ samples, True := by
    refine Sound.mapM fun frame hframe => ?_
    rw [List.mem_range] at hframe
    exact (sound_readWord (h.offset_le hdata hchannel hframe)).map fun _ _ => trivial
  refine hsamples.map fun samples hlength => ?_
  rw [List.size_toArray, hlength.1, List.length_range]

/-- All channels can be read. -/
theorem sound_channels (h : g.Fits channels data) (hdata : data.InFile file) :
    Sound ((List.range channels).mapM (g.channel file)) fun samples =>
      samples.length = channels ∧ ∀ channel ∈ samples, channel.size = g.frames := by
  have hall := Sound.mapM fun channel hchannel =>
    sound_channel h hdata (List.mem_range.mp hchannel)
  rwa [List.length_range] at hall

end SampleGrid

/-! ## The decoder -/

/-- What a decoded buffer is made of: the last format and the last data of the file. -/
lemma of_decodeWave {R : Type} [Scalar R] {file : Array UInt8} {b : SampleBuffer R}
    (h : decodeWave file = .ok b) :
    ∃ places formats format data grid, chunkPlaces file = .ok places
      ∧ (places.filter (·.tag = formatTag)).mapM (WaveFormat.read file) = .ok formats
      ∧ formats.getLast? = some format ∧ lastPlace? dataTag places = some data
      ∧ format.grid data = .ok grid
      ∧ (List.range format.channels).mapM (grid.channel file) = .ok b.channels
      ∧ b.sampleRate = Scalar.ofNat format.sampleRate := by
  unfold decodeWave at h
  obtain ⟨places, hplaces, h⟩ := bind_eq_ok.mp h
  obtain ⟨formats, hformats, h⟩ := bind_eq_ok.mp h
  cases hformat : formats.getLast? with
  | none =>
    rw [hformat] at h
    cases h
  | some format =>
    rw [hformat] at h
    cases hdata : lastPlace? dataTag places with
    | none =>
      rw [hdata] at h
      cases h
    | some data =>
      rw [hdata] at h
      obtain ⟨grid, hgrid, h⟩ := bind_eq_ok.mp h
      obtain ⟨channels, hchannels, h⟩ := bind_eq_ok.mp h
      obtain rfl := pure_eq_ok.mp h
      exact ⟨places, formats, format, data, grid, hplaces, hformats, hformat, hdata, hgrid,
        hchannels, rfl⟩

/-- A count of at least one is at least 1 as a double. -/
lemma one_le_ofNat {n : ℕ} (hpos : 0 < n) (hn : n < 2 ^ 53) : (1 : Float) ≤ Scalar.ofNat n := by
  rw [Double.le_iff_of_value Double.value?_one (Double.value?_ofNat hn)]
  exact_mod_cast hpos

/-- Whatever the bytes of a file are, decoding them gives a buffer or an input error, and reads
nothing beyond their end. A buffer has a sample rate of at least 1 and at least one channel, all
channels have the same length, and their samples take no more bytes than the data chunk has. -/
theorem decodeWave_sound (file : Array UInt8) :
    Sound (decodeWave (R := Float) file) fun buffer =>
      1 ≤ buffer.sampleRate ∧ 0 < buffer.channels.length
        ∧ (∀ channel ∈ buffer.channels, channel.size = buffer.frameCount)
        ∧ ∃ places formats format data, chunkPlaces file = .ok places
            ∧ (places.filter (·.tag = formatTag)).mapM (WaveFormat.read file) = .ok formats
            ∧ formats.getLast? = some format ∧ lastPlace? dataTag places = some data
            ∧ buffer.sampleRate = Scalar.ofNat format.sampleRate
            ∧ buffer.channels.length = format.channels
            ∧ data.start + data.length ≤ file.size
            ∧ buffer.channels.length * buffer.frameCount * (format.bits / 8) ≤ data.length := by
  unfold decodeWave
  refine (sound_chunkPlaces file).bind_eq fun places hplaces hin => ?_
  have hformats : Sound ((places.filter (·.tag = formatTag)).mapM (WaveFormat.read file))
      fun formats => formats.length = (places.filter (·.tag = formatTag)).length
        ∧ ∀ format ∈ formats, format.sampleRate < 2 ^ 32 :=
    Sound.mapM fun place hplace => WaveFormat.sound_read (hin place (List.mem_filter.mp hplace).1)
  refine hformats.bind_eq fun formats hread hrates => ?_
  cases hformat : formats.getLast? with
  | none => rfl
  | some format =>
    cases hdata : lastPlace? dataTag places with
    | none => rfl
    | some data =>
      have hdataIn := hin data (mem_of_lastPlace? hdata)
      refine (format.sound_grid data).bind fun grid hgrid => ?_
      obtain ⟨hchannels, hrate, hencoding, hfits⟩ := hgrid
      refine (SampleGrid.sound_channels hfits hdataIn).bind fun channels hsizes => ?_
      obtain ⟨hlength, hequal⟩ := hsizes
      have hframes : (⟨Scalar.ofNat format.sampleRate, channels⟩ : SampleBuffer Float).frameCount
          = grid.frames := by
        cases channels with
        | nil => rw [List.length_nil] at hlength; omega
        | cons first rest => exact hequal first List.mem_cons_self
      have hlow := hrates.2 format (List.mem_of_getLast? hformat)
      refine ⟨one_le_ofNat hrate (by omega), hlength ▸ hchannels, ?_, places, formats, format, data,
        hplaces, hread, hformat, hdata, rfl, hlength, hdataIn, ?_⟩
      · intro channel hmem
        rw [hframes]
        exact hequal channel hmem
      · rw [hframes]
        dsimp only
        rw [hlength, SampleEncoding.width_of? hencoding, Nat.mul_div_cancel_left _ (by decide)]
        exact hfits.bytes_le

end EndlessRemix
