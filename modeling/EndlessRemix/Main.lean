import EndlessRemix.Command.Run

/-!
# The program

Reads the words of the command line, the input file and a number for the seed, hands them to the
library, and prints and writes what comes back.
-/

open EndlessRemix

/-- Why reading or writing failed. -/
def faultOf : IO.Error → FileFault
  | .noFileOrDirectory .. => .missing
  | .inappropriateType .. => .isDirectory
  | .permissionDenied .. => .denied
  -- no argument but the path could be refused
  | .invalidArgument .. => .nameTooLong
  | _ => .denied

/-- Prints a line on its stream. -/
def printLine (line : ConsoleLine) : IO Unit :=
  match line.stream with
  | .plain => IO.println line.text
  | .level _ => IO.eprintln line.text

/-- Shows what a process did and gives the exit code for its end. -/
def finish (logger : ConsoleLogger) (p : CommandProcess Unit) : IO UInt32 := do
  let run := CommandRun.ofProcess p
  (run.console logger).forM printLine
  match run.result with
  | .ok code => return code.toUInt32
  | .error error =>
    printLine unexpectedFailure
    IO.eprintln error.message
    return 1

/-- The program. -/
def main (words : List String) : IO UInt32 := do
  let logger := commandLogger words
  match Command.ofWords words with
  | .error fault => finish logger (.ofExcept (.error (.arguments fault)))
  | .ok .help => finish logger (.record (.printed usage))
  | .ok (.run o) =>
    -- drawn in any case, but used only if no seed is given
    let drawn := Float.ofNat (← IO.rand 0 999999999) / 1000000000
    let input ← (IO.FS.readBinFile o.inputPath).toBaseIO
    let input := match input with
      | .ok bytes => .ok bytes.data
      | .error error => .error (faultOf error)
    let made := o.process drawn input
    match made.outcome with
    | .error _ => finish logger (made.bind fun _ => .ofExcept (.ok ()))
    | .ok remix =>
      let bytes := ByteArray.mk (encodeWave remix.output)
      let written ← (IO.FS.writeBinFile o.outputPath bytes).toBaseIO
      let saved : CommandProcess Unit :=
        match written with
        | .ok () => say .info (doneMessage remix)
        | .error error => .ofExcept (.error (.unwritable (faultOf error)))
      finish logger (made.bind fun _ => saved)
