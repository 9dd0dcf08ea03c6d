import EndlessRemix.Audio.Buffer
import Mathlib

/-!
# Channels of one length

What the check of a buffer says, the samples of a buffer by channel and frame, and that replacing
every sample by another one changes nothing else about a buffer.
-/

namespace EndlessRemix

variable {R : Type} {buffer : SampleBuffer R}

/-- A buffer passes the check if it has a channel and all channels have its number of frames. -/
lemma check_eq_ok : buffer.check = .ok ()
    ↔ buffer.channels ≠ [] ∧ ∀ channel ∈ buffer.channels, channel.size = buffer.frameCount := by
  rw [SampleBuffer.check]
  split_ifs with hnone hall
  · simp_all
  · simp_all
  · simp_all

lemma size_of_check (h : buffer.check = .ok ()) :
    ∀ channel ∈ buffer.channels, channel.size = buffer.frameCount :=
  (check_eq_ok.mp h).2

/-- Channels of one length pass, with as many frames. -/
lemma check_of_size {n : ℕ} (hne : buffer.channels ≠ [])
    (h : ∀ channel ∈ buffer.channels, channel.size = n) :
    buffer.check = .ok () ∧ buffer.frameCount = n := by
  have hframes : buffer.frameCount = n := by
    unfold SampleBuffer.frameCount
    cases hchannels : buffer.channels with
    | nil => exact absurd hchannels hne
    | cons first rest => exact h first (hchannels ▸ List.mem_cons_self)
  exact ⟨check_eq_ok.mpr ⟨hne, fun channel hmem => (h channel hmem).trans hframes.symm⟩, hframes⟩

/-- The sample of a channel in a frame. -/
def SampleBuffer.sampleAt? (buffer : SampleBuffer R) (c frame : ℕ) : Option Sample :=
  buffer.channels[c]?.bind (·[frame]?)

/-- A buffer with every sample replaced by another one. -/
def SampleBuffer.mapSamples (f : Sample → Sample) (buffer : SampleBuffer R) : SampleBuffer R :=
  { buffer with channels := buffer.channels.map (·.map f) }

/-- The entries before a cut stay where they are. -/
lemma getElem?_extract_zero {α : Type} (xs : Array α) {m i : ℕ} (hi : i < m) :
    (xs.extract 0 m)[i]? = xs[i]? := by
  rw [Array.getElem?_extract, Nat.zero_add, Nat.sub_zero]
  split_ifs with h
  · rfl
  · rw [Array.getElem?_eq_none (by omega)]

/-- The first frames of a buffer, or all of them if there are not so many. -/
def SampleBuffer.firstFrames (count : ℕ) (buffer : SampleBuffer R) : SampleBuffer R :=
  { buffer with channels := buffer.channels.map (·.extract 0 count) }

namespace SampleBuffer

lemma channels_firstFrames (count : ℕ) :
    (buffer.firstFrames count).channels = buffer.channels.map (·.extract 0 count) := rfl

variable {f : Sample → Sample}

lemma channels_mapSamples :
    (buffer.mapSamples f).channels = buffer.channels.map (·.map f) := rfl

lemma length_channels_mapSamples :
    (buffer.mapSamples f).channels.length = buffer.channels.length := by
  rw [channels_mapSamples, List.length_map]

lemma frameCount_mapSamples : (buffer.mapSamples f).frameCount = buffer.frameCount := by
  obtain ⟨sampleRate, channels⟩ := buffer
  cases channels with
  | nil => rfl
  | cons channel rest => exact Array.size_map

lemma sampleAt?_eq_some {c frame : ℕ} {s : Sample} : buffer.sampleAt? c frame = some s
    ↔ ∃ channel, buffer.channels[c]? = some channel ∧ channel[frame]? = some s := by
  rw [sampleAt?, Option.bind_eq_some_iff]

lemma sampleAt?_mapSamples (c frame : ℕ) :
    (buffer.mapSamples f).sampleAt? c frame = (buffer.sampleAt? c frame).map f := by
  rw [sampleAt?, channels_mapSamples, List.getElem?_map, sampleAt?]
  cases buffer.channels[c]? with
  | none => rfl
  | some channel => exact Array.getElem?_map

lemma check_mapSamples (h : buffer.check = .ok ()) : (buffer.mapSamples f).check = .ok () := by
  obtain ⟨hne, hsize⟩ := check_eq_ok.mp h
  refine check_eq_ok.mpr ⟨?_, ?_⟩
  · rw [channels_mapSamples, ne_eq, List.map_eq_nil_iff]
    exact hne
  · intro channel hmem
    obtain ⟨source, hsource, rfl⟩ := List.mem_map.mp hmem
    rw [frameCount_mapSamples, Array.size_map, hsize source hsource]

end SampleBuffer

end EndlessRemix
