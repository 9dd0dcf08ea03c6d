/-!
# Kinds of errors

Every error that a remix reports belongs to one of four kinds, each with a code that does not change
when the wording of a message does. What can go wrong is listed where it can go wrong, as the fault
type of each module; a fault type gives its faults' messages and, where they differ, their kinds.
-/

namespace EndlessRemix

/-- What kind of error a caller has to deal with. -/
inductive ErrorKind where
  /-- The input is missing, unreadable or malformed. -/
  | input
  /-- No beats were found, so there is nothing to emit. -/
  | emptyInput
  /-- There are fewer than two beats, or no edge between any two. -/
  | degenerateGraph
  /-- An option is out of range. -/
  | configuration
  deriving Repr, DecidableEq

namespace ErrorKind

/-- The code that stands for a kind in reports. -/
def code : ErrorKind → String
  | input => "ERR_INPUT"
  | emptyInput => "ERR_EMPTY_INPUT"
  | degenerateGraph => "ERR_DEGENERATE_GRAPH"
  | configuration => "ERR_CONFIGURATION"

/-- The message of an error of which nothing else is known. -/
def defaultMessage : ErrorKind → String
  | emptyInput => "No beats detected in input"
  | _ => ""

/-- Only an input error carries the failure that caused it. -/
def keepsCause : ErrorKind → Bool
  | input => true
  | _ => false

end ErrorKind

end EndlessRemix
