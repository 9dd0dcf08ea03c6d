import EndlessRemix.Beat.Basic
import EndlessRemix.Random
import EndlessRemix.Walk.Span

/-!
# The walk over the beats

A walk starts at the first beat and goes on until the visited slices hold the target number of
frames. After each visit one value is drawn: below the branch probability, at a beat with neighbors,
a second draw chooses one of them by its position in the list and the walk jumps there; otherwise it
goes on to the next beat, and after the last to the first. `walk` keeps the path, counts jumps and
wraparounds, and hands back the random source. Draws in `[0, 1)` and neighbors that are beats keep a
walk on the beats; any other may lead it to where no beat is, and then it is lost.
-/

namespace EndlessRemix

/-- What decides how a walk goes: where each beat's frames are, which beats each may jump to, the
probability of a jump, and how values are drawn. -/
structure WalkPlan (R σ : Type) where
  slices : Array Slice
  neighbors : Array (Array (Neighbor R))
  branchProbability : R
  draws : Draws R σ

/-- A walk under way. `next` is the position of the beat to visit, if there is one; past the last
beat it stands for the first. -/
structure Walker (σ : Type) where
  next : Option Nat
  emitted : Nat
  path : Array Nat
  jumps : Nat
  wraparounds : Nat
  source : σ

/-- A finished walk. The number of emitted frames is no number when a visited slice had no length.
-/
structure Journey (σ : Type) where
  path : Array Nat
  jumps : Nat
  wraparounds : Nat
  emitted : Whole
  source : σ

/-- A walk that came to where no beat is, with the random source as it was then. -/
structure LostWalk (σ : Type) where
  source : σ
  deriving Repr, DecidableEq

section

variable {R σ : Type} [Scalar R]

/-- The position that a destination stands for among `count` beats. A number that is no position
leads past the last beat, or nowhere. -/
def Destination.position? (count : Nat) : Destination R → Option Nat
  | .beat position => some position
  | .stray number => if Scalar.ofNat count ≤ number then some count else none

/-- The neighbor that a draw chooses by its position in the list. A draw outside `[0, 1)` may choose
none. -/
def chooseNeighbor? (neighbors : Array (Neighbor R)) (draw : R) : Option (Neighbor R) :=
  match Scalar.whole (pickIndex draw (Scalar.ofNat neighbors.size)) with
  | .int (.ofNat k) => neighbors[k]?
  | _ => none

end

namespace Walker

variable {R σ : Type}

/-- A walk before its first visit. -/
def start (source : σ) : Walker σ := ⟨some 0, 0, #[], 0, 0, source⟩

/-- The walk is over after `emitted` frames. -/
def finish (w : Walker σ) (emitted : Whole) : Journey σ :=
  ⟨w.path, w.jumps, w.wraparounds, emitted, w.source⟩

/-- The beat that is visited at a position, and the walk there: past the last of `count` beats it
wraps around to the first. -/
def arrive (count position : Nat) (w : Walker σ) : Nat × Walker σ :=
  if count ≤ position then
    (0, { w with path := w.path.push 0, wraparounds := w.wraparounds + 1 })
  else (position, { w with path := w.path.push position })

variable [Scalar R]

/-- The choice after the visit of a beat: a jump to a neighbor or the step to the next beat. -/
def leave (plan : WalkPlan R σ) (here : Nat) (w : Walker σ) : Except (LostWalk σ) (Walker σ) :=
  let neighbors := (plan.neighbors[here]?).getD #[]
  -- this draw is made whether or not there is a neighbor to jump to
  let (draw, source) := plan.draws.draw w.source
  if draw < plan.branchProbability ∧ 0 < neighbors.size then
    let (draw, source) := plan.draws.draw source
    match chooseNeighbor? neighbors draw with
    | some neighbor =>
      -- a destination astray does no harm before it is reached
      .ok { w with
        next := neighbor.dest.position? plan.slices.size
        jumps := w.jumps + 1
        source }
    | none => .error ⟨source⟩
  else .ok { w with next := some (here + 1), source }

/-- The walk until `target` frames are emitted, for at most `fuel` visits. A slice without a finite
length is the last that is visited. -/
def run (plan : WalkPlan R σ) (target : Nat) :
    Nat → Walker σ → Except (LostWalk σ) (Journey σ)
  | 0, w => .ok (w.finish (.int w.emitted))
  | fuel + 1, w =>
    if w.emitted < target then
      match w.next with
      | none => .error ⟨w.source⟩
      | some position =>
        let (here, arrived) := w.arrive plan.slices.size position
        match arrived.leave plan here with
        | .error lost => .error lost
        | .ok left =>
          -- the whole slice counts as emitted, also where the output ends inside it
          match (plan.slices[here]?).map Slice.length with
          | some (.int (.ofNat length)) =>
            run plan target fuel { left with emitted := left.emitted + length }
          | some length => .ok (left.finish length)
          | none => .ok (left.finish (.int left.emitted))
    else .ok (w.finish (.int w.emitted))

end Walker

/-- How many visits in a row may emit nothing. A walk that made more of them would have come twice
to the same beat with draws that repeat, and would go on like this for ever. -/
def WalkPlan.patience {R σ : Type} (plan : WalkPlan R σ) : Nat :=
  plan.slices.size * plan.draws.cycle

/-- The walk that emits at least `target` frames. A slice has at least one frame, unless it lies so
far before the buffer that frames cannot be told apart there; the bound on the number of visits
leaves room for those. -/
def walk {R σ : Type} [Scalar R] (plan : WalkPlan R σ) (target : Nat) (source : σ) :
    Except (LostWalk σ) (Journey σ) :=
  Walker.run plan target ((target + 1) * (plan.patience + 1)) (Walker.start source)

end EndlessRemix
