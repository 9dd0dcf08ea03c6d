import EndlessRemix.Number.Scalar

/-!
# Random numbers

A seeded generator on 32-bit words: each state is `1664525 · state + 1013904223` modulo `2 ^ 32`,
and a draw is the new state as a fraction of `2 ^ 32`. The state of a source is a value, so a walk
takes one and hands it back. A source can also replay given values. Either way the draws repeat in
the end, and `Draws` tells after how many.
-/

namespace EndlessRemix

/-- The generator's next state. -/
def nextState (state : UInt32) : UInt32 := state * 1664525 + 1013904223

/-- The state that a seed starts from: its whole part modulo `2 ^ 32`, with 0 replaced by 1. -/
def seedState (seed : Whole) : UInt32 :=
  let state := (seed.toWord 32).toUInt32
  if state = 0 then 1 else state

section

variable {R : Type} [Scalar R]

/-- A state as a number in `[0, 1)`. -/
def unitOf (state : UInt32) : R := Scalar.ofNat state.toNat / Scalar.ofNat UInt32.size

/-- One draw from a seeded generator, and its next state. -/
def drawSeeded (state : UInt32) : R × UInt32 :=
  let next := nextState state
  (unitOf next, next)

/-- A way to draw values from sources of type `σ`. After `cycle` draws a source draws what it has
drawn before, in the same order. -/
structure Draws (R σ : Type) where
  draw : σ → R × σ
  cycle : Nat

/-- The draws of a seeded generator repeat when the 32 bits of its state do. -/
def Draws.seeded : Draws R UInt32 := ⟨drawSeeded, UInt32.size⟩

/-- A source of random numbers: seeded, or the given values in order, over and over. -/
inductive RandomSource (R : Type) where
  | seeded (state : UInt32)
  | replayed (values : Array R) (position : Nat)

namespace RandomSource

/-- The source that a seed starts. -/
def ofSeed (seed : R) : RandomSource R := .seeded (seedState (Scalar.whole seed))

/-- One draw, and the source after it. -/
def draw : RandomSource R → R × RandomSource R
  | .seeded state => let (value, next) := drawSeeded state; (value, .seeded next)
  | .replayed values position =>
    ((values[position % values.size]?).getD Scalar.noNumber, .replayed values (position + 1))

/-- The draws that a source allows: replayed values begin again after the last one. -/
def draws (s : RandomSource R) : Draws R (RandomSource R) where
  draw := draw
  cycle :=
    match s with
    | .seeded _ => UInt32.size
    -- without values all draws are alike
    | .replayed values _ => max 1 values.size

end RandomSource

/-- A list position chosen by a draw, uniformly for draws in `[0, 1)`. The product may round up to
the length, so it is held below it. -/
def pickIndex (draw length : R) : R := min (Scalar.floor (draw * length)) (length - 1)

/-- The seed that a draw in `[0, 1)` stands for when none was asked for. -/
def seedOfDraw (draw : R) : R := Scalar.floor (draw * Scalar.ofNat 1000000000)

end

end EndlessRemix
