import EndlessRemix.Beat.Basic
import EndlessRemix.Number.Text

/-!
# The frames of a beat

A beat's times are turned into frame positions by rounding each edge to the nearest frame, so times
that were derived from frame positions give those frames back. A span is at least one frame long,
starts inside the buffer and ends with it at the latest.
-/

namespace EndlessRemix

/-- The frames from `start` up to, not including, `stop`. -/
structure Span (R : Type) where
  start : R
  stop : R

/-- A beat that starts beyond the end of the buffer. -/
structure SpanFault (R : Type) where
  index : R
  start : R
  frameCount : R
  deriving Repr, DecidableEq

/-- The sentence that reports the fault. -/
def SpanFault.message (f : SpanFault Float) : String :=
  "Beat " ++ numberText f.index ++ " starts at frame " ++ numberText f.start
    ++ ", beyond the buffer (" ++ numberText f.frameCount ++ " frames)"

section

variable {R : Type} [Scalar R]

/-- The number of frames of a duration in seconds. -/
def frameTarget (seconds sampleRate : R) : R := Scalar.round (seconds * sampleRate)

/-- The frames that a beat occupies in a buffer of `frameCount` frames. -/
def Beat.span (beat : Beat R) (sampleRate frameCount : R) : Except (SpanFault R) (Span R) :=
  let start := Scalar.round (beat.start * sampleRate)
  if frameCount ≤ start then .error ⟨beat.index, start, frameCount⟩
  else
    let stop := Scalar.round ((beat.start + beat.duration) * sampleRate)
    .ok ⟨start, min (max (start + 1) stop) frameCount⟩

/-- A stretch of a channel to copy: where it starts and how many frames it has. -/
structure Slice where
  start : Whole
  length : Whole

/-- The stretch of a span. -/
def Span.slice (s : Span R) : Slice := ⟨Scalar.whole s.start, Scalar.whole (s.stop - s.start)⟩

end

end EndlessRemix
