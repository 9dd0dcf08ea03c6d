import EndlessRemix.Audio.Buffer

/-!
# The mono downmix

Analysis looks at one channel: a lone channel is taken as it is, several are averaged. The average
is accumulated channel by channel in the precision of samples, and has as many frames as the first
channel; a sample that a channel lacks is no number.
-/

namespace EndlessRemix

section

variable {R : Type} [Scalar R]

/-- The value of a sample. -/
def Sample.value (s : Sample) : R := Scalar.ofDatum s.datum

/-- The values of a channel. -/
def channelValues (channel : Array Sample) : Array R := channel.map Sample.value

/-- The average of the channels at a frame. -/
def mixedFrame (channels : List (Array R)) (frame : Nat) : R :=
  channels.foldl (fun sum channel =>
    Scalar.stored (sum + (channel[frame]?).getD Scalar.noNumber / Scalar.ofNat channels.length)) 0

/-- All channels as one. -/
def downmix (channels : List (Array R)) : Array R :=
  match channels with
  | [] => #[]
  -- an average would lose the sign of a zero, since it is added to zero
  | [channel] => channel
  | first :: _ => Array.ofFn fun frame : Fin first.size => mixedFrame channels frame

end

end EndlessRemix
