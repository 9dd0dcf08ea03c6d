import EndlessRemix.Command.Token
import EndlessRemix.Number.Numeral
import EndlessRemix.Options.Basic
import EndlessRemix.Text.Quoted

/-!
# The command

The tokens of the command line are checked from the left; the first bad one decides the message. Of
a flag that is repeated the last one counts. A request for help wins over everything that the checks
let pass. Otherwise there must be one operand, the input file, and the numbers must be numbers;
their ranges are checked with the settings of the remix.
-/

namespace EndlessRemix

/-- What is wrong with a command line. -/
inductive ArgumentFault where
  | unknownFlag (written : String)
  | missingValue (flag : Flag)
  | unexpectedValue (flag : Flag)
  | ambiguousValue (flag : Flag) (written : String)
  | noInput
  | severalInputs (count : Nat)
  | notANumber (flag : Flag) (text : String)
  deriving Repr, DecidableEq

/-- The sentence that reports the fault. -/
def ArgumentFault.message : ArgumentFault → String
  | .unknownFlag written =>
    "Unknown option '" ++ written ++ "'. To specify a positional argument starting with a '-', "
      ++ "place it at the end of the command after '--', as in '-- " ++ quoted written
  | .missingValue flag => "Option '" ++ flag.display ++ " <value>' argument missing"
  | .unexpectedValue flag => "Option '" ++ flag.display ++ "' does not take an argument"
  | .ambiguousValue flag written =>
    let advice := if written.startsWith "--" then "'" ++ written ++ "=-XYZ'"
      else "'--" ++ flag.name ++ "=-XYZ' or '" ++ written ++ "-XYZ'"
    "Option '" ++ written ++ "' argument is ambiguous.\n"
      ++ "Did you forget to specify the option argument for '" ++ written ++ "'?\n"
      ++ "To specify an option argument starting with a dash use " ++ advice ++ "."
  | .noInput => "Missing input file"
  | .severalInputs count => "Expected one input file, got " ++ toString count
  | .notANumber flag text => "--" ++ flag.name ++ " expects a number, got \"" ++ text ++ "\""

/-- A word that looks like a flag: a dash, and something after it. -/
def looksLikeFlag (text : String) : Bool :=
  match text.toList with
  | '-' :: _ :: _ => true
  | _ => false

/-- A token is well-formed: its flag is known and has a value just if it takes one, which may look
like a flag only if it is attached. -/
def CommandToken.check : CommandToken → Except ArgumentFault Unit
  | .operand _ => .ok ()
  | .flag none written _ => .error (.unknownFlag written)
  | .flag (some f) written value =>
    if f.takesValue then
      match value with
      | .missing => .error (.missingValue f)
      | .attached _ => .ok ()
      | .nextWord text =>
        if looksLikeFlag text then .error (.ambiguousValue f written) else .ok ()
    else
      match value with
      | .missing => .ok ()
      | _ => .error (.unexpectedValue f)

/-- The texts of the operands. -/
def operands (tokens : List CommandToken) : List String :=
  tokens.filterMap fun token =>
    match token with
    | .operand text => some text
    | .flag .. => none

/-- A flag is given. -/
def hasFlag (f : Flag) (tokens : List CommandToken) : Bool :=
  tokens.any fun token =>
    match token with
    | .operand _ => false
    | .flag known _ _ => known = some f

/-- The value of a flag in a token. -/
def CommandToken.valueOf? (f : Flag) : CommandToken → Option String
  | .flag known _ (.attached text) | .flag known _ (.nextWord text) =>
    if known = some f then some text else none
  | _ => none

/-- The last value of a flag. -/
def lastValue? (f : Flag) (tokens : List CommandToken) : Option String :=
  (tokens.filterMap (CommandToken.valueOf? f)).getLast?

/-- The number that is the last value of a flag. -/
def numberOf? (f : Flag) (tokens : List CommandToken) : Except ArgumentFault (Option Float) :=
  match lastValue? f tokens with
  | none => .ok none
  | some text =>
    match Numeral.read? text with
    | some value => .ok (some value)
    | none => .error (.notANumber f text)

/-- What to make of which file. -/
structure RunOptions where
  inputPath : String
  outputPath : String
  settings : RemixSettings Float
  quiet : Bool

/-- What the command line asks for. -/
inductive Command where
  | help
  | run (options : RunOptions)

/-- The output file by default. -/
def defaultOutput : String := "infinite.wav"

/-- The duration by default, in minutes. -/
def defaultMinutes : Float := 5

/-- A run on an input file, with the flags of the tokens. -/
def runOf (input : String) (tokens : List CommandToken) : Except ArgumentFault RunOptions := do
  let minutes := (← numberOf? .duration tokens).getD defaultMinutes
  let threshold ← numberOf? .threshold tokens
  let branchProbability ← numberOf? .prob tokens
  let seed ← numberOf? .seed tokens
  let policy : DegeneratePolicy := if hasFlag .strict tokens then .reject else .warn
  return {
    inputPath := input
    outputPath := (lastValue? .output tokens).getD defaultOutput
    settings := {
      targetDurationSeconds := Setting.ofNumber (minutes * 60)
      threshold := threshold.bind Setting.ofNumber
      branchProbability := branchProbability.bind Setting.ofNumber
      seed := seed.bind Setting.ofNumber
      degenerateGraph := some (.text policy.text) }
    quiet := hasFlag .quiet tokens }

/-- The command that the tokens make up. -/
def Command.ofTokens (tokens : List CommandToken) : Except ArgumentFault Command := do
  tokens.forM CommandToken.check
  -- help needs no operand and no good numbers
  if hasFlag .help tokens then return .help
  match operands tokens with
  | [] => throw .noInput
  | [input] => return .run (← runOf input tokens)
  | inputs => throw (.severalInputs inputs.length)

/-- The command that the words of a command line make up. -/
def Command.ofWords (words : List String) : Except ArgumentFault Command :=
  Command.ofTokens (CommandToken.ofWords words)

end EndlessRemix
