import EndlessRemix.Command.Arguments
import EndlessRemix.Files
import EndlessRemix.Remix.Make
import EndlessRemix.Wave.Decode
import EndlessRemix.Wave.Encode

/-!
# Running a command

A run reads the input file, remixes it and writes the output file, in this order, so that nothing is
written unless all has gone well. What a user can cause is reported as the last line of the log, and
the exit code is 1. A write that fails is reported by the caller.
-/

namespace EndlessRemix

/-- The help text. -/
def usage : String := "\n".intercalate [
  "Usage: loopwalk <input.wav> [options]",
  "",
  "Generate an endless remix of a song by walking its beat similarity graph.",
  "",
  "Options:",
  "  -o, --output <path>       Output WAV file (default: infinite.wav)",
  "  -d, --duration <minutes>  Target duration in minutes (default: 5)",
  "  -t, --threshold <value>   Similarity threshold, lower is stricter (default: 60)",
  "  -p, --prob <value>        Branch probability from 0.0 to 1.0 (default: 0.5)",
  "  -s, --seed <integer>      Seed for a reproducible walk (default: random)",
  "      --strict              Fail when no beat pair is similar enough",
  "  -q, --quiet               Only report warnings and errors",
  "  -h, --help                Show this message"]

/-! ## Failures and events -/

/-- Why a command fails. -/
inductive CommandError where
  | arguments (fault : ArgumentFault)
  | unreadable (path : String) (fault : FileFault)
  | wave (fault : WaveFault)
  | remix (error : RemixError Float)
  | unwritable (fault : FileFault)
  deriving Repr, DecidableEq

namespace CommandError

/-- The sentence that reports the error. -/
def message : CommandError → String
  | arguments fault => fault.message
  | unreadable path .missing => "File not found: " ++ path
  | unreadable path _ => "Cannot read file: " ++ path
  | wave fault => fault.message
  | remix error => error.message
  | unwritable fault => fault.code

/-- The kind of an error. What has none is not reported in the log. -/
def kind? : CommandError → Option ErrorKind
  | arguments _ => some .configuration
  | unreadable .. => some .input
  | wave fault => fault.kind?
  | remix error => error.kind?
  | unwritable _ => none

end CommandError

/-- What happens during a run. -/
inductive CommandEvent where
  | logged (entry : LogEntry)
  | printed (text : String)
  | wrote (place : Place) (bytes : Array UInt8)
  deriving Repr, DecidableEq

/-- A process of the command line. -/
abbrev CommandProcess := Journaled CommandEvent CommandError

/-- A line in the log. -/
def say (level : LogLevel) (message : String) : CommandProcess Unit :=
  .record (.logged ⟨level, message⟩)

/-! ## The run -/

section

variable [Memory]

/-- Making a remix, as a part of a run. -/
def remixProcess (p : Journaled (RemixEvent Float) (RemixError Float) (Remix Float)) :
    CommandProcess (Remix Float) where
  events := (notices p.events).map fun notice => .logged notice.entry
  outcome := p.outcome.mapError .remix

/-- The remix that a run makes of the bytes of its input file, up to the point where it is saved. -/
def RunOptions.process (o : RunOptions) (drawn : Float) (input : Except FileFault (Array UInt8)) :
    CommandProcess (Remix Float) := do
  let file ← .ofExcept (input.mapError (.unreadable o.inputPath))
  let buffer ← .ofExcept ((decodeWave file).mapError .wave)
  let remix ← remixProcess (makeRemix .analyzer drawn buffer o.settings)
  say .info ("Saving to " ++ o.outputPath ++ "...")
  return remix

/-- The message that ends a run. -/
def doneMessage (remix : Remix Float) : String :=
  "Done! Replay with --seed " ++ numberText remix.options.seed

/-- A run in a working directory. -/
def RunOptions.run (o : RunOptions) (tree : FileTree) (working : Place) (drawn : Float) :
    CommandProcess Unit := do
  let remix ← o.process drawn (tree.read working o.inputPath)
  -- a path that leads nowhere leaves all files as they are
  let place ← .ofExcept ((tree.placeToWrite working o.outputPath).mapError .unwritable)
  .record (.wrote place (encodeWave remix.output))
  say .info (doneMessage remix)

/-- What a command line does. -/
def commandProcess (words : List String) (tree : FileTree) (working : Place) (drawn : Float) :
    CommandProcess Unit := do
  match ← .ofExcept ((Command.ofWords words).mapError .arguments) with
  | .help => .record (.printed usage)
  | .run o => o.run tree working drawn

end

/-! ## The end of a command -/

/-- How a command ends: with an exit code, or with an error that is for the caller to report. -/
structure CommandRun where
  events : List CommandEvent
  result : Except CommandError Nat

/-- The end of a process. -/
def CommandRun.ofProcess (p : CommandProcess Unit) : CommandRun :=
  match p.outcome with
  | .ok () => ⟨p.events, .ok 0⟩
  | .error error =>
    match error.kind? with
    | some kind =>
      ⟨p.events ++ [.logged ⟨.error, kind.code ++ ": " ++ error.message⟩], .ok 1⟩
    | none => ⟨p.events, .error error⟩

/-- A command line run to its end. -/
def runCommand [Memory] (words : List String) (tree : FileTree) (working : Place) (drawn : Float) :
    CommandRun :=
  .ofProcess (commandProcess words tree working drawn)

namespace CommandRun

/-- The log of a run. -/
def log (r : CommandRun) : List LogEntry :=
  r.events.filterMap fun event =>
    match event with
    | .logged entry => some entry
    | _ => none

/-- The texts that a run prints. -/
def printed (r : CommandRun) : List String :=
  r.events.filterMap fun event =>
    match event with
    | .printed text => some text
    | _ => none

/-- The files after a run. -/
def files (r : CommandRun) (tree : FileTree) : FileTree :=
  r.events.foldl (fun tree event =>
    match event with
    | .wrote place bytes => tree.write place bytes
    | _ => tree) tree

/-- The exit code of the program: an error that the log does not report counts as 1 too. -/
def exitCode (r : CommandRun) : Nat :=
  match r.result with
  | .ok code => code
  | .error _ => 1

end CommandRun

/-! ## The console -/

/-- The logger of a command line: all goes to the error stream, and with the quiet flag only
warnings and errors do. -/
def commandLogger (words : List String) : ConsoleLogger where
  least :=
    match Command.ofWords words with
    | .ok (.run o) => if o.quiet then some .warn else some .info
    | _ => some .info
  toErrors := true

/-- What an event shows on the console. -/
def CommandEvent.line? (logger : ConsoleLogger) : CommandEvent → Option ConsoleLine
  | .logged entry => logger.line? entry
  | .printed text => some ⟨.plain, text⟩
  | .wrote .. => none

/-- What a run shows on the console. -/
def CommandRun.console (r : CommandRun) (logger : ConsoleLogger) : List ConsoleLine :=
  r.events.filterMap (CommandEvent.line? logger)

/-- What the console shows before an error that the log does not report. -/
def unexpectedFailure : ConsoleLine := ⟨.level .error, "[ERROR] Unexpected failure:"⟩

end EndlessRemix
