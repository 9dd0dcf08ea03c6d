/-!
# The flags of the command line

Each flag has a long name, and most have a letter. A flag either takes a value or stands by itself.
-/

namespace EndlessRemix

/-- A flag of the command line. -/
inductive Flag where
  | output
  | duration
  | threshold
  | prob
  | seed
  | strict
  | quiet
  | help
  deriving Repr, DecidableEq

namespace Flag

/-- All flags. -/
def all : List Flag := [output, duration, threshold, prob, seed, strict, quiet, help]

/-- The long name. -/
def name : Flag → String
  | output => "output"
  | duration => "duration"
  | threshold => "threshold"
  | prob => "prob"
  | seed => "seed"
  | strict => "strict"
  | quiet => "quiet"
  | help => "help"

/-- The letter. -/
def letter? : Flag → Option Char
  | output => some 'o'
  | duration => some 'd'
  | threshold => some 't'
  | prob => some 'p'
  | seed => some 's'
  | strict => none
  | quiet => some 'q'
  | help => some 'h'

/-- The flag takes a value. -/
def takesValue : Flag → Bool
  | output | duration | threshold | prob | seed => true
  | strict | quiet | help => false

/-- The flag with a long name. -/
def ofName? (name : String) : Option Flag := all.find? (·.name = name)

/-- The flag with a letter. -/
def ofLetter? (letter : Char) : Option Flag := all.find? (·.letter? = some letter)

/-- The flag in messages: both its names. -/
def display (f : Flag) : String :=
  match f.letter? with
  | some letter => String.ofList ['-', letter] ++ ", --" ++ f.name
  | none => "--" ++ f.name

end Flag

end EndlessRemix
