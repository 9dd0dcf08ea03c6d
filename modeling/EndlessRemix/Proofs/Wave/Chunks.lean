import EndlessRemix.Proofs.Wave.RoundTrip

/-!
# What of a file counts

However many chunks a file has, in whatever order and padded with whatever bytes, the bodies of its
last format chunk and of its last data chunk decide what it is decoded to. The scan of the chunks
keeps to where they stand, and what is read of a body is read as if it stood by itself.
-/

namespace EndlessRemix

/-! ## Readings within a body -/

section

variable {file : Array UInt8} {body : List UInt8} {start : ℕ}

namespace BytesAt

/-- Bytes within a body are the same in the file as in the body by itself. -/
lemma readBytes_within (h : BytesAt file start body) {k count : ℕ} (hk : k + count ≤ body.length) :
    readBytes file (start + k) count = readBytes body.toArray k count := by
  obtain ⟨front, middle, back, rfl, rfl, rfl⟩ : ∃ front middle back,
      body = front ++ (middle ++ back) ∧ k = front.length ∧ count = middle.length := by
    refine ⟨body.take k, (body.drop k).take count, (body.drop k).drop count, ?_, ?_, ?_⟩
    · rw [List.take_append_drop, List.take_append_drop]
    · rw [List.length_take]
      omega
    · rw [List.length_take, List.length_drop]
      omega
  have hself := (bytesAt_toArray (front ++ (middle ++ back))).right.left
  rw [Nat.zero_add] at hself
  rw [h.right.left.readBytes_eq rfl, hself.readBytes_eq rfl]

lemma readWord_within (h : BytesAt file start body) {k width : ℕ} (hk : k + width ≤ body.length) :
    readWord file (start + k) width = readWord body.toArray k width := by
  rw [readWord, readWord, h.readBytes_within hk]

end BytesAt

/-- A chunk stands at a place of a file. -/
structure ChunkPlace.Holds (file : Array UInt8) (place : ChunkPlace) (c : Chunk) : Prop where
  tag : place.tag = c.tag
  length : place.length = c.body.length
  body : BytesAt file place.start c.body

/-- A format is read in a file as in its body. -/
lemma WaveFormat.read_within {place : ChunkPlace} {c : Chunk} (h : place.Holds file c) :
    WaveFormat.read file place = WaveFormat.read c.body.toArray ⟨formatTag, 0, c.body.length⟩ := by
  unfold WaveFormat.read
  dsimp only
  rw [h.length]
  by_cases hshort : c.body.length < 16
  · rw [if_pos hshort, if_pos hshort]
    rfl
  · have hword : ∀ k width, k + width ≤ 16 →
        readWord file (place.start + k) width = readWord c.body.toArray (0 + k) width := by
      intro k width hk
      rw [Nat.zero_add]
      exact h.body.readWord_within (by omega)
    have houter := hword 0 2 (by norm_num)
    rw [Nat.add_zero] at houter
    rw [if_neg hshort, if_neg hshort, houter, hword 2 2 (by norm_num), hword 4 4 (by norm_num),
      hword 12 2 (by norm_num), hword 14 2 (by norm_num)]
    by_cases hlong : 26 ≤ c.body.length
    · have hinner : readWord file (place.start + 24) 2 = readWord c.body.toArray (0 + 24) 2 := by
        rw [Nat.zero_add]
        exact h.body.readWord_within (by omega)
      rw [hinner]
    · simp only [hlong, and_false, if_false]

/-- A format of at least sixteen bytes is read. -/
lemma WaveFormat.exists_read {place : ChunkPlace} (h : place.InFile file)
    (hlength : 16 ≤ place.length) : ∃ format, WaveFormat.read file place = .ok format := by
  unfold ChunkPlace.InFile at h
  have hword : ∀ k width, k + width ≤ place.length →
      ∃ word, readWord file (place.start + k) width = .ok word := by
    intro k width hk
    rw [readWord, readBytes, if_pos (by omega)]
    exact ⟨_, rfl⟩
  obtain ⟨outer, houter⟩ := hword 0 2 (by omega)
  obtain ⟨channels, hchannels⟩ := hword 2 2 (by omega)
  obtain ⟨rate, hrate⟩ := hword 4 4 (by omega)
  obtain ⟨block, hblock⟩ := hword 12 2 (by omega)
  obtain ⟨bits, hbits⟩ := hword 14 2 (by omega)
  rw [Nat.add_zero] at houter
  unfold WaveFormat.read
  rw [if_neg (by omega), houter, hchannels, hrate, hblock, hbits]
  by_cases hext : outer = extensibleEncoding ∧ 26 ≤ place.length
  · obtain ⟨inner, hinner⟩ := hword 24 2 (by omega)
    refine ⟨⟨inner, channels, rate, block, bits⟩, ?_⟩
    rw [hinner]
    exact if_pos hext
  · exact ⟨⟨outer, channels, rate, block, bits⟩, if_neg hext⟩

/-- A grid begins where the data does. -/
lemma WaveFormat.grid_at (f : WaveFormat) (place : ChunkPlace) :
    f.grid place
      = (f.grid ⟨dataTag, 0, place.length⟩).map fun g => { g with start := place.start } := by
  rcases f.grid_cases with ⟨fault, -, hgrid⟩ | ⟨encoding, blockAlign, -, -, -, -, hgrid⟩
  · rw [hgrid, hgrid]
    rfl
  · rw [hgrid, hgrid]
    rfl

/-- The samples are read in a file as in the body of its data. -/
lemma SampleGrid.channels_within {g : SampleGrid} {count : ℕ} {tag : List UInt8}
    (h : BytesAt file start body) (hg : g.Fits count ⟨tag, 0, body.length⟩) :
    (List.range count).mapM (({ g with start } : SampleGrid).channel file)
      = (List.range count).mapM (g.channel body.toArray) := by
  have hstart : g.start = 0 := hg.start_eq
  have hbody : (⟨tag, 0, body.length⟩ : ChunkPlace).InFile body.toArray := by
    show 0 + body.length ≤ body.toArray.size
    rw [Nat.zero_add, List.size_toArray]
  refine mapM_congr (List.forall₂_same.mpr fun channel hchannel => ?_)
  have hrow : (List.range g.frames).mapM (({ g with start } : SampleGrid).read file channel)
      = (List.range g.frames).mapM (g.read body.toArray channel) := by
    refine mapM_congr (List.forall₂_same.mpr fun frame hframe => ?_)
    have hle := hg.offset_le hbody (List.mem_range.mp hchannel) (List.mem_range.mp hframe)
    rw [hstart, Nat.zero_add, List.size_toArray] at hle
    unfold SampleGrid.read
    rw [hstart, Nat.zero_add, Nat.add_assoc start, h.readWord_within hle]
  unfold SampleGrid.channel
  exact congrArg _ hrow

/-- So what is made of a format and the samples is the same. -/
lemma WaveFormat.samples_within {α : Type} (f : WaveFormat) {place : ChunkPlace} {d : Chunk}
    (h : place.Holds file d) (next : List (Array Sample) → Except WaveFault α) :
    (f.grid place >>= fun g => (List.range f.channels).mapM (g.channel file) >>= next)
      = (f.grid ⟨dataTag, 0, d.body.length⟩ >>= fun g =>
          (List.range f.channels).mapM (g.channel d.body.toArray) >>= next) := by
  have hsound := f.sound_grid ⟨dataTag, 0, d.body.length⟩
  rw [f.grid_at place, h.length]
  cases hgrid : f.grid ⟨dataTag, 0, d.body.length⟩ with
  | error fault => rfl
  | ok g =>
    rw [hgrid] at hsound
    obtain ⟨-, -, -, hfits⟩ : _ ∧ _ ∧ _ ∧ g.Fits f.channels ⟨dataTag, 0, d.body.length⟩ := hsound
    show ((List.range f.channels).mapM
      (({ g with start := place.start } : SampleGrid).channel file) >>= next) = _
    rw [SampleGrid.channels_within h.body hfits]
    rfl

end

/-! ## The chunks that count -/

/-- The last chunk of a name. -/
def lastChunk? (tag : List UInt8) (chunks : List Chunk) : Option Chunk :=
  (chunks.filter (·.tag = tag)).getLast?

/-- Chunks in a row stand at their places. -/
lemma forall₂_placesOf {file : Array UInt8} {offset : ℕ} {chunks : List Chunk} {bytes : List UInt8}
    (hrow : ChunkRow chunks bytes) (htags : ∀ c ∈ chunks, c.tag.length = 4)
    (h : BytesAt file offset bytes) :
    List.Forall₂ (ChunkPlace.Holds file) (placesOf offset chunks) chunks := by
  induction hrow generalizing offset with
  | nil => exact .nil
  | @cons c chunks bytes pad rest ih =>
    have hbody : BytesAt file offset (c.tag ++ Word.toBytes 4 c.body.length ++ c.body) := h.left.left
    have hright := hbody.right
    have hrest := h.right
    rw [List.length_append, htags c List.mem_cons_self, Word.length_toBytes] at hright
    rw [c.length_padded] at hrest
    exact .cons ⟨rfl, rfl, hright⟩ (ih (fun d hd => htags d (List.mem_cons_of_mem c hd)) hrest)

/-- Those of one name do too. -/
lemma forall₂_filter_tag {file : Array UInt8} {places : List ChunkPlace} {chunks : List Chunk}
    (h : List.Forall₂ (ChunkPlace.Holds file) places chunks) (tag : List UInt8) :
    List.Forall₂ (ChunkPlace.Holds file) (places.filter (·.tag = tag))
      (chunks.filter (·.tag = tag)) := by
  refine List.rel_filter (fun place c hholds => ?_) h
  show decide (place.tag = tag) = true ↔ decide (c.tag = tag) = true
  rw [hholds.tag]

/-- The last entries of lists that belong together belong together. -/
lemma forall₂_getLast? {α β : Type} {r : α → β → Prop} {xs : List α} {ys : List β}
    (h : List.Forall₂ r xs ys) : Option.Rel r xs.getLast? ys.getLast? := by
  have hreverse : List.Forall₂ r xs.reverse ys.reverse := List.rel_reverse h
  rw [List.getLast?_eq_head?_reverse, List.getLast?_eq_head?_reverse]
  generalize xs.reverse = xs', ys.reverse = ys' at hreverse
  cases hreverse with
  | nil => exact .none
  | cons hxy _ => exact .some hxy

/-- If all format chunks of a file are long enough to be read, the last of them and the last data
decide. -/
lemma decodeWave_of_last {R : Type} [Scalar R] {file : Array UInt8} {places : List ChunkPlace}
    {place data : ChunkPlace} {format : WaveFormat} (hplaces : chunkPlaces file = .ok places)
    (hlong : ∀ p ∈ places, p.tag = formatTag → 16 ≤ p.length)
    (hplace : lastPlace? formatTag places = some place)
    (hformat : WaveFormat.read file place = .ok format)
    (hdata : lastPlace? dataTag places = some data) :
    decodeWave (R := R) file = (format.grid data >>= fun grid =>
      (List.range format.channels).mapM (grid.channel file) >>= fun channels =>
        .ok ⟨Scalar.ofNat format.sampleRate, channels⟩) := by
  have hin := (sound_chunkPlaces file).of_ok hplaces
  obtain ⟨formats, hformats⟩ : ∃ formats,
      (places.filter (·.tag = formatTag)).mapM (WaveFormat.read file) = .ok formats := by
    refine exists_mapM_eq_ok fun p hp => ?_
    obtain ⟨hmem, htag⟩ := List.mem_filter.mp hp
    exact WaveFormat.exists_read (hin p hmem) (hlong p hmem (of_decide_eq_true htag))
  have hlast := forall₂_getLast? (mapM_eq_ok.mp hformats)
  rw [lastPlace?] at hplace
  rw [hplace] at hlast
  refine decodeWave_of_formats hplaces hformats ?_ hdata
  generalize formats.getLast? = format? at hlast ⊢
  cases hlast with
  | some hread => rw [Except.ok.inj (hread.symm.trans hformat)]

/-- What a file is decoded to whose last format chunk and last data chunk have these bodies. -/
def decodeBodies {R : Type} [Scalar R] (format? data? : Option (List UInt8)) :
    Except WaveFault (SampleBuffer R) := do
  let some formatBody := format? | throw .noFormat
  let some data := data? | throw .noData
  let format ← WaveFormat.read formatBody.toArray ⟨formatTag, 0, formatBody.length⟩
  let grid ← format.grid ⟨dataTag, 0, data.length⟩
  let channels ← (List.range format.channels).mapM (grid.channel data.toArray)
  return { sampleRate := Scalar.ofNat format.sampleRate, channels }

section

variable {R : Type} [Scalar R] {chunks : List Chunk} {bytes : List UInt8}

/-- Format chunks that are long enough are read. -/
lemma exists_formats (hformats : ∀ c ∈ chunks, c.tag = formatTag → 16 ≤ c.body.length) :
    ∃ formats, (chunks.filter (·.tag = formatTag)).mapM (fun c =>
      WaveFormat.read c.body.toArray ⟨formatTag, 0, c.body.length⟩) = .ok formats := by
  refine exists_mapM_eq_ok fun c hc => ?_
  obtain ⟨hmem, htag⟩ := List.mem_filter.mp hc
  refine WaveFormat.exists_read ?_ (hformats c hmem (of_decide_eq_true htag))
  show 0 + c.body.length ≤ c.body.toArray.size
  rw [Nat.zero_add, List.size_toArray]

/-- A file of chunks is decoded to what the bodies of two of them say. -/
theorem decodeWave_riffFile (size : ℕ) (hrow : ChunkRow chunks bytes)
    (hchunks : ∀ c ∈ chunks, c.Writable)
    (hformats : ∀ c ∈ chunks, c.tag = formatTag → 16 ≤ c.body.length) :
    decodeWave (R := R) (riffFile size bytes).toArray
      = decodeBodies ((lastChunk? formatTag chunks).map (·.body))
          ((lastChunk? dataTag chunks).map (·.body)) := by
  have hplaces := chunkPlaces_riffFile size hrow hchunks
  have hbytes : BytesAt (riffFile size bytes).toArray 12 bytes :=
    (bytesAt_toArray (riffTag ++ Word.toBytes 4 size ++ waveTag ++ bytes)).right
  have hholds := forall₂_placesOf hrow (fun c hc => (hchunks c hc).tag) hbytes
  generalize (riffFile size bytes).toArray = file, placesOf 12 chunks = places at *
  -- every format chunk is long enough to be read, and the last of them counts
  have hread : (places.filter (·.tag = formatTag)).mapM (WaveFormat.read file)
      = (chunks.filter (·.tag = formatTag)).mapM fun c =>
          WaveFormat.read c.body.toArray ⟨formatTag, 0, c.body.length⟩ :=
    mapM_congr ((forall₂_filter_tag hholds formatTag).imp fun _ _ h => WaveFormat.read_within h)
  obtain ⟨formats, hok⟩ := exists_formats hformats
  have hlastFormat := forall₂_getLast? (mapM_eq_ok.mp hok)
  have hlastData := forall₂_getLast? (forall₂_filter_tag hholds dataTag)
  rw [hok] at hread
  simp only [decodeWave, hplaces, ok_bind, hread]
  unfold lastPlace? lastChunk?
  generalize formats.getLast? = format?, (chunks.filter (·.tag = formatTag)).getLast? = c?,
    (places.filter (·.tag = dataTag)).getLast? = place?,
    (chunks.filter (·.tag = dataTag)).getLast? = d? at *
  cases hlastFormat with
  | none => rfl
  | some hformat =>
    cases hlastData with
    | none => rfl
    | @some place d hdata =>
      simp only [decodeBodies, Option.map_some, hformat, ok_bind]
      exact WaveFormat.samples_within _ hdata _

end

/-! ## Whole files -/

/-- A chunk describes samples or holds them. -/
def Chunk.Counts (c : Chunk) : Prop := c.tag = formatTag ∨ c.tag = dataTag

instance : DecidablePred Chunk.Counts := fun _ => inferInstanceAs (Decidable (_ ∨ _))

section

variable {tag : List UInt8} {chunks : List Chunk} {c : Chunk}

lemma of_lastChunk? (h : lastChunk? tag chunks = some c) : c ∈ chunks ∧ c.tag = tag := by
  obtain ⟨hmem, htag⟩ := List.mem_filter.mp (List.mem_of_getLast? h)
  exact ⟨hmem, of_decide_eq_true htag⟩

lemma lastChunk?_eq_none (h : ∀ c ∈ chunks, c.tag ≠ tag) : lastChunk? tag chunks = none := by
  rw [lastChunk?, List.getLast?_eq_none_iff, List.filter_eq_nil_iff]
  simpa using h

/-- The last chunk of a name that counts is the last one among those that count. -/
lemma lastChunk?_filter (htag : tag = formatTag ∨ tag = dataTag) :
    lastChunk? tag (chunks.filter Chunk.Counts) = lastChunk? tag chunks := by
  rw [lastChunk?, lastChunk?, List.filter_filter]
  congr 2
  funext c
  rw [Bool.and_eq_left_iff_imp]
  intro h
  rw [decide_eq_true_iff] at h ⊢
  rw [Chunk.Counts, h]
  exact htag

end

/-- Files of chunks are decoded to the same if the last chunks of the two names are the same. -/
lemma decodeWave_congr {R : Type} [Scalar R] {size size' : ℕ} {chunks chunks' : List Chunk}
    {bytes bytes' : List UInt8} (hrow : ChunkRow chunks bytes) (hrow' : ChunkRow chunks' bytes')
    (hchunks : ∀ c ∈ chunks, c.Writable) (hchunks' : ∀ c ∈ chunks', c.Writable)
    (hformats : ∀ c ∈ chunks, c.tag = formatTag → 16 ≤ c.body.length)
    (hformats' : ∀ c ∈ chunks', c.tag = formatTag → 16 ≤ c.body.length)
    (hformat : lastChunk? formatTag chunks = lastChunk? formatTag chunks')
    (hdata : lastChunk? dataTag chunks = lastChunk? dataTag chunks') :
    decodeWave (R := R) (riffFile size bytes).toArray
      = decodeWave (riffFile size' bytes').toArray := by
  rw [decodeWave_riffFile size hrow hchunks hformats,
    decodeWave_riffFile size' hrow' hchunks' hformats', hformat, hdata]

/-- What of a file counts. Of any chunks in a row, each padded with any byte if its count is odd,
and whatever the header says about the size: the file is decoded to what the two chunks by
themselves are decoded to that are the last of their names, in either order; files in which the same
chunks count are decoded to the same, whatever other chunks stand among these; and without a format
chunk or without a data chunk the file is refused. -/
theorem decodeWave_chunks (size : ℕ) {chunks : List Chunk} {bytes : List UInt8}
    (hrow : ChunkRow chunks bytes) (hchunks : ∀ c ∈ chunks, c.Writable)
    (hformats : ∀ c ∈ chunks, c.tag = formatTag → 16 ≤ c.body.length) :
    (∀ format data, lastChunk? formatTag chunks = some format →
        lastChunk? dataTag chunks = some data → ∀ size',
        decodeWave (R := Float) (riffFile size bytes).toArray
            = decodeWave (waveFileSized size' [format, data]).toArray
          ∧ decodeWave (R := Float) (riffFile size bytes).toArray
            = decodeWave (waveFileSized size' [data, format]).toArray)
      ∧ (∀ size' chunks' bytes', ChunkRow chunks' bytes' → (∀ c ∈ chunks', c.Writable) →
          chunks'.filter Chunk.Counts = chunks.filter Chunk.Counts →
          decodeWave (R := Float) (riffFile size' bytes').toArray
            = decodeWave (riffFile size bytes).toArray)
      ∧ ((∀ c ∈ chunks, c.tag ≠ formatTag) ∨ (∀ c ∈ chunks, c.tag ≠ dataTag) →
          ∃ fault, decodeWave (R := Float) (riffFile size bytes).toArray = .error fault
            ∧ fault.kind? = some .input
            ∧ fault = if lastChunk? formatTag chunks = none then .noFormat else .noData) := by
  refine ⟨?_, ?_, ?_⟩
  · intro format data hformat hdata size'
    obtain ⟨hmem, htag⟩ := of_lastChunk? hformat
    obtain ⟨hmem', htag'⟩ := of_lastChunk? hdata
    have hpair : ∀ c, c = format ∨ c = data → c ∈ chunks := by
      rintro c (rfl | rfl)
      · exact hmem
      · exact hmem'
    have htwo : ∀ pair : List Chunk, (∀ c ∈ pair, c = format ∨ c = data) →
        lastChunk? formatTag pair = some format → lastChunk? dataTag pair = some data →
        decodeWave (R := Float) (riffFile size bytes).toArray
          = decodeWave (waveFileSized size' pair).toArray := fun pair hin hf hd =>
      decodeWave_congr hrow (chunkRow_chunkBytes pair) hchunks
        (fun c hc => hchunks c (hpair c (hin c hc))) hformats
        (fun c hc => hformats c (hpair c (hin c hc))) (hformat.trans hf.symm) (hdata.trans hd.symm)
    have hne : dataTag ≠ formatTag := by decide
    constructor
    · refine htwo _ (by simp) ?_ ?_ <;> simp [lastChunk?, htag, htag', hne, hne.symm]
    · refine htwo _ (by simp [or_comm]) ?_ ?_ <;> simp [lastChunk?, htag, htag', hne, hne.symm]
  · intro size' chunks' bytes' hrow' hchunks' hcount
    have hformats' : ∀ c ∈ chunks', c.tag = formatTag → 16 ≤ c.body.length := by
      intro c hc htag
      have hin : c ∈ chunks'.filter Chunk.Counts :=
        List.mem_filter.mpr ⟨hc, decide_eq_true (.inl htag)⟩
      rw [hcount] at hin
      exact hformats c (List.mem_filter.mp hin).1 htag
    have hlast : ∀ tag, tag = formatTag ∨ tag = dataTag →
        lastChunk? tag chunks' = lastChunk? tag chunks := by
      intro tag htag
      rw [← lastChunk?_filter htag, hcount, lastChunk?_filter htag]
    exact decodeWave_congr hrow' hrow hchunks' hchunks hformats' hformats (hlast _ (.inl rfl))
      (hlast _ (.inr rfl))
  · intro hmissing
    rw [decodeWave_riffFile size hrow hchunks hformats]
    rcases hmissing with hnone | hnone
    · rw [lastChunk?_eq_none hnone]
      exact ⟨.noFormat, rfl, rfl, rfl⟩
    · rw [lastChunk?_eq_none hnone]
      cases lastChunk? formatTag chunks with
      | none => exact ⟨.noFormat, rfl, rfl, rfl⟩
      | some format => exact ⟨.noData, rfl, rfl, rfl⟩

/-- A chunk of another name, with an odd count. -/
def remark : Chunk := ⟨[0x4c, 0x49, 0x53, 0x54], [0x64]⟩

/-- The chunk that describes a frame at full scale. -/
def fullScaleFormat : Chunk := ⟨formatTag, fullScale.waveFormat.body fullScale.byteRate⟩

/-- A frame at full scale is decoded from among remarks and samples that do not count. -/
theorem decodeWave_chunks_fullScale :
    decodeWave (R := Float) (riffFile 7 (remark.padded 0xff ++ (Chunk.padded ⟨dataTag, [1, 2, 3]⟩ 0xfe
        ++ (fullScaleFormat.padded 0 ++ (fullScale.dataChunk.padded 0 ++ (remark.padded 0 ++ [])))))).toArray
      = .ok (fullScale.mapSamples Sample.quantized) := by
  have hrow := ChunkRow.cons (c := remark) 0xff (.cons (c := ⟨dataTag, [1, 2, 3]⟩) 0xfe
    (.cons (c := fullScaleFormat) 0 (.cons (c := fullScale.dataChunk) 0
      (.cons (c := remark) 0 .nil))))
  have hformat : fullScaleFormat.body.length = 16 := WaveFormat.length_body _ _
  have hdata : fullScale.dataChunk.body.length = 2 := by
    rw [SampleBuffer.length_data]
    rfl
  have hmem : ∀ c ∈ [remark, ⟨dataTag, [1, 2, 3]⟩, fullScaleFormat, fullScale.dataChunk, remark],
      c.Writable ∧ (c.tag = formatTag → 16 ≤ c.body.length) := by
    intro c hc
    simp only [List.mem_cons, List.not_mem_nil, or_false] at hc
    rcases hc with rfl | rfl | rfl | rfl | rfl
    · exact ⟨⟨rfl, by decide⟩, nofun⟩
    · exact ⟨⟨rfl, by decide⟩, nofun⟩
    · exact ⟨⟨rfl, by rw [hformat]; norm_num⟩, fun _ => hformat.ge⟩
    · exact ⟨⟨rfl, by rw [hdata]; norm_num⟩, nofun⟩
    · exact ⟨⟨rfl, by decide⟩, nofun⟩
  obtain ⟨hlast, -, -⟩ := decodeWave_chunks 7 hrow (fun c hc => (hmem c hc).1)
    fun c hc => (hmem c hc).2
  obtain ⟨htwo, -⟩ := hlast fullScaleFormat fullScale.dataChunk rfl rfl
    (4 + (chunkBytes [fullScaleFormat, fullScale.dataChunk]).length)
  rw [htwo]
  exact decodeWave_encodeWave writable_fullScale

end EndlessRemix
