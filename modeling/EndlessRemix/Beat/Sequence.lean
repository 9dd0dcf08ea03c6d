import EndlessRemix.Beat.Basic
import EndlessRemix.Number.Text

/-!
# Sequences of beats

What the graph and the walk rely on: each beat's index is its position, durations are positive,
starts are not negative and strictly increase, and beats do not overlap. `checkBeats` names the
first beat that breaks one of these rules.
-/

namespace EndlessRemix

/-- The rule that the beat at a position breaks. -/
inductive BeatFault (R : Type) where
  | index (position : Nat) (index : R)
  | duration (position : Nat) (duration : R)
  | start (position : Nat) (start : R)
  | notAfterPrevious (position : Nat)
  | overlapsPrevious (position : Nat)
  deriving Repr, DecidableEq

/-- The sentence that reports the fault. -/
def BeatFault.message : BeatFault Float → String
  | .index i x => "Beat at position " ++ toString i ++ " has index " ++ numberText x
  | .duration i x => "Beat " ++ toString i ++ " has non-positive duration " ++ numberText x
  | .start i x => "Beat " ++ toString i ++ " has invalid start " ++ numberText x
  | .notAfterPrevious i =>
    "Beat " ++ toString i ++ " does not start after beat " ++ toString (i - 1)
  | .overlapsPrevious i => "Beat " ++ toString (i - 1) ++ " overlaps beat " ++ toString i

section

variable {R : Type} [Scalar R]

/-- How far a beat may reach into the next one: boundaries are usually frame positions divided by
the sample rate, and carry its rounding. -/
def overlapTolerance : R := 1e-9

/-- The rules for the beat at a position by itself. -/
def Beat.check (position : Nat) (beat : Beat R) : Except (BeatFault R) Unit :=
  if ¬ Scalar.same beat.index (Scalar.ofNat position) then .error (.index position beat.index)
  else if ¬ 0 < beat.duration ∨ ¬ Scalar.isFinite beat.duration then
    .error (.duration position beat.duration)
  else if ¬ 0 ≤ beat.start ∨ ¬ Scalar.isFinite beat.start then .error (.start position beat.start)
  else .ok ()

/-- The rules for the beat at a position after the beat before it. -/
def Beat.checkNext (previous : Beat R) (position : Nat) (beat : Beat R) :
    Except (BeatFault R) Unit :=
  if beat.start ≤ previous.start then .error (.notAfterPrevious position)
  else if beat.start + overlapTolerance < previous.start + previous.duration then
    .error (.overlapsPrevious position)
  else .ok ()

/-- The rules for the beats from a position on, after the beat `previous`. -/
def checkBeatsAfter (previous : Beat R) (position : Nat) :
    List (Beat R) → Except (BeatFault R) Unit
  | [] => .ok ()
  | beat :: rest => do
    beat.check position
    previous.checkNext position beat
    checkBeatsAfter beat (position + 1) rest

/-- A list of beats obeys the rules; otherwise the first fault. -/
def checkBeats : List (Beat R) → Except (BeatFault R) Unit
  | [] => .ok ()
  | beat :: rest => do
    beat.check 0
    checkBeatsAfter beat 1 rest

end

end EndlessRemix
