import EndlessRemix.Proofs.Wave.RoundTrip

/-!
# Writing a file again

A written file that is read and written again keeps its size and its header. Levels are written to
32767 on the positive side and read from 32768, so a level in the upper half of the positive side
comes back one lower, and every other level comes back as it was. The file is the same exactly if it
has no level in that upper half.
-/

namespace EndlessRemix

/-- The level of a channel in a frame of a written file with so many channels. -/
def levelAt (channels : ℕ) (file : Array UInt8) (c frame : ℕ) : Except WaveFault ℤ :=
  (readWord file (44 + frame * (2 * channels) + c * 2) 2).map (SampleEncoding.level 2)

section

variable {R : Type} [Scalar R] {b : SampleBuffer R}

/-- A file that was written from a buffer has the levels of its samples. -/
theorem levelAt_encodeWave (hcheck : b.check = .ok ()) {c frame : ℕ} {s : Sample}
    (hs : b.sampleAt? c frame = some s) :
    levelAt b.channels.length (encodeWave b) c frame = .ok s.level16 :=
  (b.bytesAt_level hcheck (bytesAt_encodeWave b).2 hs).readLevel_eq s.level16_mem.1 s.level16_mem.2

lemma toList_header (b : SampleBuffer R) :
    ((encodeWave b).extract 0 44).toList
      = waveHeader b.waveFormat b.byteRate b.dataChunk.body.length := by
  rw [Array.toList_extract, List.extract_eq_take_drop, List.drop_zero, toList_encodeWave]
  exact List.take_left' (length_waveHeader _ _ _)

/-- Other samples do not change the header. -/
lemma waveHeader_mapSamples (f : Sample → Sample) (b : SampleBuffer R) :
    waveHeader (b.mapSamples f).waveFormat (b.mapSamples f).byteRate
        (b.mapSamples f).dataChunk.body.length
      = waveHeader b.waveFormat b.byteRate b.dataChunk.body.length := by
  rw [SampleBuffer.length_data, SampleBuffer.length_data, SampleBuffer.frameCount_mapSamples,
    SampleBuffer.length_channels_mapSamples, SampleBuffer.waveFormat, SampleBuffer.byteRate,
    SampleBuffer.length_channels_mapSamples, SampleBuffer.waveFormat, SampleBuffer.byteRate]
  rfl

/-- Other samples with the same levels do not change the file. -/
lemma encodeWave_mapSamples {f : Sample → Sample}
    (hf : ∀ c frame s, b.sampleAt? c frame = some s → (f s).level16 = s.level16) :
    encodeWave (b.mapSamples f) = encodeWave b := by
  have hrow : ∀ frame, frameBytes (b.mapSamples f).channels frame = frameBytes b.channels frame := by
    intro frame
    rw [frameBytes, SampleBuffer.channels_mapSamples, List.flatMap_map, frameBytes]
    refine List.flatMap_congr fun channel hmem => ?_
    obtain ⟨c, hc⟩ := List.getElem?_of_mem hmem
    rw [Array.getElem?_map]
    cases hs : channel[frame]? with
    | none => rfl
    | some s =>
      have hlevel := hf c frame s (SampleBuffer.sampleAt?_eq_some.mpr ⟨channel, hc, hs⟩)
      exact congrArg levelBytes hlevel
  have hdata : (b.mapSamples f).dataChunk.body = b.dataChunk.body := by
    show (List.range (b.mapSamples f).frameCount).flatMap (frameBytes (b.mapSamples f).channels)
      = (List.range b.frameCount).flatMap (frameBytes b.channels)
    rw [SampleBuffer.frameCount_mapSamples, funext hrow]
  apply Array.ext'
  rw [toList_encodeWave, toList_encodeWave, waveHeader_mapSamples, hdata]

end

/-- A written file that is read and written again has the same size and the same header. Its levels
stay, except that those above 16384 become one lower; so it is the same file exactly if it has none
above 16384. -/
theorem encodeWave_resave {b : SampleBuffer Float} (h : b.Writable) :
    ∃ decoded : SampleBuffer Float, decodeWave (encodeWave b) = .ok decoded
      ∧ (encodeWave decoded).size = (encodeWave b).size
      ∧ (encodeWave decoded).extract 0 44 = (encodeWave b).extract 0 44
      ∧ (∀ c frame s, b.sampleAt? c frame = some s →
          levelAt b.channels.length (encodeWave b) c frame = .ok s.level16
          ∧ levelAt b.channels.length (encodeWave decoded) c frame
            = .ok (if s.level16 ≤ 16384 then s.level16 else s.level16 - 1))
      ∧ (encodeWave decoded = encodeWave b
          ↔ ∀ c frame s, b.sampleAt? c frame = some s → s.level16 ≤ 16384) := by
  have hheader := waveHeader_mapSamples Sample.quantized b
  have hlevel : ∀ c frame s, b.sampleAt? c frame = some s →
      levelAt b.channels.length (encodeWave (b.mapSamples Sample.quantized)) c frame
        = .ok (if s.level16 ≤ 16384 then s.level16 else s.level16 - 1) := by
    intro c frame s hs
    have hquantized : (b.mapSamples Sample.quantized).sampleAt? c frame = some s.quantized := by
      rw [SampleBuffer.sampleAt?_mapSamples, hs]
      rfl
    have hat := levelAt_encodeWave (SampleBuffer.check_mapSamples h.check) hquantized
    rwa [SampleBuffer.length_channels_mapSamples, Sample.level16_quantized] at hat
  refine ⟨_, decodeWave_encodeWave h, ?_, ?_, fun c frame s hs =>
    ⟨levelAt_encodeWave h.check hs, hlevel c frame s hs⟩, ?_, ?_⟩
  · rw [← Array.length_toList, ← Array.length_toList, toList_encodeWave, toList_encodeWave, hheader,
      List.length_append, List.length_append, SampleBuffer.length_data, SampleBuffer.length_data,
      SampleBuffer.frameCount_mapSamples, SampleBuffer.length_channels_mapSamples]
  · apply Array.ext'
    rw [toList_header, toList_header, hheader]
  · intro hsame c frame s hs
    have hat := hlevel c frame s hs
    rw [hsame, levelAt_encodeWave h.check hs] at hat
    have heq := Except.ok.inj hat
    split_ifs at heq <;> omega
  · intro hall
    refine encodeWave_mapSamples fun c frame s hs => ?_
    rw [Sample.level16_quantized, if_pos (hall c frame s hs)]

/-- A frame at full scale, written again, is one level lower. -/
theorem encodeWave_resave_fullScale :
    ∃ decoded : SampleBuffer Float, decodeWave (encodeWave fullScale) = .ok decoded
      ∧ levelAt 1 (encodeWave fullScale) 0 0 = .ok 32767
      ∧ levelAt 1 (encodeWave decoded) 0 0 = .ok 32766 := by
  obtain ⟨decoded, hdecoded, -, -, hlevels, -⟩ := encodeWave_resave writable_fullScale
  have hlevel : (⟨0x3f800000⟩ : Sample).level16 = 32767 := by decide +kernel
  have hat := hlevels 0 0 ⟨0x3f800000⟩ rfl
  rw [hlevel] at hat
  exact ⟨decoded, hdecoded, hat⟩

/-- Not every file stays the same when it is read and written again. -/
theorem not_encodeWave_stable :
    ¬∀ b : SampleBuffer Float, b.Writable →
      ∃ decoded : SampleBuffer Float, decodeWave (encodeWave b) = .ok decoded
        ∧ encodeWave decoded = encodeWave b := by
  intro hall
  obtain ⟨decoded, hdecoded, hsame⟩ := hall fullScale writable_fullScale
  rw [decodeWave_encodeWave writable_fullScale] at hdecoded
  obtain rfl := Except.ok.inj hdecoded
  have hchanged : encodeWave (fullScale.mapSamples Sample.quantized) ≠ encodeWave fullScale := by
    decide +kernel
  exact hchanged hsame

end EndlessRemix
