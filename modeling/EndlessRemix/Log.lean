/-!
# The log

Messages have a level. A console logger drops those below its least level, marks each of the others
with its level, and prints it on the stream of that level or, if standard output is to stay free for
data, on the error stream.
-/

namespace EndlessRemix

/-- How much a message matters. -/
inductive LogLevel where
  | debug
  | info
  | warn
  | error
  deriving Repr, DecidableEq

namespace LogLevel

/-- The word for a level. -/
def text : LogLevel → String
  | debug => "debug"
  | info => "info"
  | warn => "warn"
  | error => "error"

/-- The mark that a level puts on a line. -/
def tag : LogLevel → String
  | debug => "DEBUG"
  | info => "INFO"
  | warn => "WARN"
  | error => "ERROR"

/-- Levels in order of weight. -/
def rank : LogLevel → Nat
  | debug => 0
  | info => 1
  | warn => 2
  | error => 3

/-- The level that a word names. -/
def of? (word : String) : Option LogLevel :=
  [debug, info, warn, error].find? (·.text = word)

end LogLevel

/-- A message with its level. -/
structure LogEntry where
  level : LogLevel
  message : String
  deriving Repr, DecidableEq

/-- Where a console prints a line: each level has a stream, and plain output another. -/
inductive ConsoleStream where
  | plain
  | level (level : LogLevel)
  deriving Repr, DecidableEq

/-- A line on a console. -/
structure ConsoleLine where
  stream : ConsoleStream
  text : String
  deriving Repr, DecidableEq

/-- A logger on a console. Without a least level nothing is dropped. -/
structure ConsoleLogger where
  least : Option LogLevel := some .info
  toErrors : Bool := false
  deriving Repr, DecidableEq

namespace ConsoleLogger

/-- A message of this level is printed. -/
def accepts (l : ConsoleLogger) (level : LogLevel) : Bool :=
  match l.least with
  | none => true
  | some least => least.rank ≤ level.rank

/-- What is printed for an entry. -/
def line? (l : ConsoleLogger) (e : LogEntry) : Option ConsoleLine :=
  if l.accepts e.level then
    some ⟨.level (if l.toErrors then .error else e.level), "[" ++ e.level.tag ++ "] " ++ e.message⟩
  else none

end ConsoleLogger

end EndlessRemix
