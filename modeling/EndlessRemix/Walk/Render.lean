import EndlessRemix.Audio.Buffer
import EndlessRemix.Walk.Span

/-!
# The sound of a path

The output of a walk is the concatenation of the slices along its path, the last one cut short so
that the output has exactly the target number of frames. Every channel is cut at the same places.
-/

namespace EndlessRemix

/-- A position moved on by a number of frames. -/
def Whole.advance : Whole → Nat → Whole
  | .int value, n => .int (value + n)
  | .posInf, _ => .posInf
  | .negInf, _ => .negInf
  | .nan, _ => .nan

namespace Slice

/-- How many of a slice's frames fit into `room` frames. -/
def writable (s : Slice) (room : Nat) : Nat :=
  match s.length with
  | .int (.ofNat n) => min n room
  | _ => 0

/-- The first `count` frames of a slice. Bounds outside the channel are read as slice bounds are:
negative ones from the end, then clamped; frames that are missing stay silent. -/
def frames (s : Slice) (channel : Array Sample) (count : Nat) : Array Sample :=
  -- both bounds are read as bounds of the whole channel, and then compared
  let copied := channel.extract (s.start.clampPosition channel.size)
    ((s.start.advance count).clampPosition channel.size)
  copied ++ Array.replicate (count - copied.size) Sample.zero

end Slice

/-- The first `target` frames that a path emits from a channel. -/
def renderChannel (slices : Array Slice) (path : Array Nat) (target : Nat)
    (channel : Array Sample) : Array Sample :=
  let emitted := path.foldl (fun out beat =>
    match slices[beat]? with
    | some s => out ++ s.frames channel (s.writable (target - out.size))
    | none => out) #[]
  -- silence fills what a walk that ended early has left open
  emitted ++ Array.replicate (target - emitted.size) Sample.zero

end EndlessRemix
