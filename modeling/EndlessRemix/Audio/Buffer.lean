import EndlessRemix.Audio.Sample

/-!
# `SampleBuffer`: decoded audio

A buffer holds one list of samples per channel and the number of frames per second. What a buffer
must satisfy before a walk may copy from it is checked by `SampleBuffer.check`.
-/

namespace EndlessRemix

/-- Audio in memory: a sample rate, and one list of samples for each channel. -/
structure SampleBuffer (R : Type) where
  sampleRate : R
  channels : List (Array Sample)

/-- What can be wrong with the channels of a buffer. -/
inductive BufferFault where
  | noChannels
  | unequalChannels
  deriving DecidableEq, Repr

/-- The sentence that reports the fault. -/
def BufferFault.message : BufferFault → String
  | .noChannels => "Sample buffer has no channels"
  | .unequalChannels => "Sample buffer channels differ in length"

namespace SampleBuffer

variable {R : Type}

/-- The number of frames: the length of the first channel. -/
def frameCount (b : SampleBuffer R) : Nat :=
  match b.channels with
  | [] => 0
  | channel :: _ => channel.size

/-- There is a channel, and all channels are as long as the first. -/
def check (b : SampleBuffer R) : Except BufferFault Unit :=
  if b.channels.isEmpty then .error .noChannels
  else if b.channels.all fun channel => channel.size = b.frameCount then .ok ()
  else .error .unequalChannels

end SampleBuffer

end EndlessRemix
