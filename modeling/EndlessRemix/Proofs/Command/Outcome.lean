import EndlessRemix.Proofs.Command.Replay

/-!
# What a command leaves behind

A command takes one of seven courses: its words are refused, or ask for help; the input cannot be
read, or decoded; no remix can be made of it; the output cannot be written; or it is saved. Nothing
is written before all else has gone well, and no line of the log up to the end is an error. So the
exit code tells whether there is a new file, and the last line of the log why there is none.
-/

namespace EndlessRemix

/-! ## Events before the end -/

/-- The event neither writes a file nor reports an error. -/
def CommandEvent.Harmless : CommandEvent → Prop
  | .logged entry => entry.level ≠ .error
  | .printed _ => True
  | .wrote .. => False

/-- Harmless events leave the files as they are. -/
lemma CommandRun.files_of_harmless {events : List CommandEvent}
    (h : ∀ event ∈ events, event.Harmless) (rest : List CommandEvent)
    (result : Except CommandError ℕ) (tree : FileTree) :
    CommandRun.files ⟨events ++ rest, result⟩ tree = CommandRun.files ⟨rest, result⟩ tree := by
  induction events with
  | nil => rfl
  | cons event events ih =>
    obtain ⟨hevent, hevents⟩ := List.forall_mem_cons.mp h
    cases event with
    | logged entry => exact ih hevents
    | printed text => exact ih hevents
    | wrote place bytes => exact hevent.elim

/-- No notice of a remix is an error. -/
lemma Notice.level_ne_error (notice : Notice Float) : notice.level ≠ .error := by
  cases notice <;> exact nofun

/-- What making a remix adds to the log. -/
def remixEvents [Memory] (drawn : Float) (buffer : SampleBuffer Float) (o : RunOptions) :
    List CommandEvent :=
  (remixProcess (makeRemix .analyzer drawn buffer o.settings)).events

lemma harmless_remixEvents [Memory] (drawn : Float) (buffer : SampleBuffer Float) (o : RunOptions) :
    ∀ event ∈ remixEvents drawn buffer o, event.Harmless := by
  intro event hmem
  obtain ⟨notice, -, rfl⟩ := List.mem_map.mp hmem
  exact notice.level_ne_error

/-- The line before the output is written. -/
def savingEvent (o : RunOptions) : CommandEvent :=
  .logged ⟨.info, "Saving to " ++ o.outputPath ++ "..."⟩

/-! ## Courses -/

/-- The events of a command and its outcome, by how far it gets. -/
inductive CommandCourse [Memory] (words : List String) (tree : FileTree) (working : Place)
    (drawn : Float) : List CommandEvent → Except CommandError Unit → Prop where
  | refused {fault : ArgumentFault} (h : Command.ofWords words = .error fault) :
      CommandCourse words tree working drawn [] (.error (.arguments fault))
  | help (h : Command.ofWords words = .ok .help) :
      CommandCourse words tree working drawn [.printed usage] (.ok ())
  | unreadable {o : RunOptions} {fault : FileFault} (hcommand : Command.ofWords words = .ok (.run o))
      (h : tree.read working o.inputPath = .error fault) :
      CommandCourse words tree working drawn [] (.error (.unreadable o.inputPath fault))
  | undecodable {o : RunOptions} {file : Array UInt8} {fault : WaveFault}
      (hcommand : Command.ofWords words = .ok (.run o))
      (hread : tree.read working o.inputPath = .ok file)
      (h : (decodeWave file : Except WaveFault (SampleBuffer Float)) = .error fault) :
      CommandCourse words tree working drawn [] (.error (.wave fault))
  | notMade {o : RunOptions} {file : Array UInt8} {buffer : SampleBuffer Float}
      {e : RemixError Float} (hcommand : Command.ofWords words = .ok (.run o))
      (hread : tree.read working o.inputPath = .ok file) (hdecode : decodeWave file = .ok buffer)
      (h : (makeRemix .analyzer drawn buffer o.settings).outcome = .error e) :
      CommandCourse words tree working drawn (remixEvents drawn buffer o) (.error (.remix e))
  | unwritable {o : RunOptions} {file : Array UInt8} {buffer : SampleBuffer Float}
      {remix : Remix Float} {fault : FileFault} (hcommand : Command.ofWords words = .ok (.run o))
      (hread : tree.read working o.inputPath = .ok file) (hdecode : decodeWave file = .ok buffer)
      (hmake : (makeRemix .analyzer drawn buffer o.settings).outcome = .ok remix)
      (h : tree.placeToWrite working o.outputPath = .error fault) :
      CommandCourse words tree working drawn (remixEvents drawn buffer o ++ [savingEvent o])
        (.error (.unwritable fault))
  | saved {o : RunOptions} {file : Array UInt8} {buffer : SampleBuffer Float}
      {remix : Remix Float} {place : Place} (hcommand : Command.ofWords words = .ok (.run o))
      (hread : tree.read working o.inputPath = .ok file) (hdecode : decodeWave file = .ok buffer)
      (hmake : (makeRemix .analyzer drawn buffer o.settings).outcome = .ok remix)
      (hplace : tree.placeToWrite working o.outputPath = .ok place) :
      CommandCourse words tree working drawn
        (remixEvents drawn buffer o ++ [savingEvent o]
          ++ [.wrote place (encodeWave remix.output), .logged ⟨.info, doneMessage remix⟩])
        (.ok ())

section

variable [Memory] {words : List String} {tree : FileTree} {working : Place} {drawn : Float}
  {o : RunOptions} {file : Array UInt8} {buffer : SampleBuffer Float}

/-- What is made of a decoded input file. -/
lemma RunOptions.process_of_decode (hdecode : decodeWave file = .ok buffer) :
    o.process drawn (.ok file) = match (makeRemix .analyzer drawn buffer o.settings).outcome with
      | .error e => ⟨remixEvents drawn buffer o, .error (.remix e)⟩
      | .ok remix => ⟨remixEvents drawn buffer o ++ [savingEvent o], .ok remix⟩ := by
  have hprocess : o.process drawn (.ok file)
      = (remixProcess (makeRemix .analyzer drawn buffer o.settings) >>= fun remix =>
          ⟨[savingEvent o], .ok remix⟩) := by
    show ((Journaled.ofExcept ((decodeWave file).mapError CommandError.wave)) >>= _) = _
    rw [hdecode]
    rfl
  rw [hprocess]
  cases hmake : (makeRemix .analyzer drawn buffer o.settings).outcome with
  | error e =>
    have hfailed : (remixProcess (makeRemix .analyzer drawn buffer o.settings)).outcome
        = .error (.remix e) := mapError_eq_error.mpr ⟨e, hmake, rfl⟩
    rw [Journaled.bind_of_error hfailed]
    rfl
  | ok remix =>
    have hmade : (remixProcess (makeRemix .analyzer drawn buffer o.settings)).outcome
        = .ok remix := mapError_eq_ok.mpr hmake
    rw [Journaled.bind_of_outcome hmade]
    rfl

/-- A run on a decoded input file takes one of the last three courses. -/
lemma course_run (hcommand : Command.ofWords words = .ok (.run o))
    (hread : tree.read working o.inputPath = .ok file) (hdecode : decodeWave file = .ok buffer) :
    CommandCourse words tree working drawn (o.run tree working drawn).events
      (o.run tree working drawn).outcome := by
  have hprocess := @RunOptions.process_of_decode _ drawn o file buffer hdecode
  rw [RunOptions.run, hread]
  cases hmake : (makeRemix .analyzer drawn buffer o.settings).outcome with
  | error e =>
    rw [hmake] at hprocess
    rw [hprocess]
    exact .notMade hcommand hread hdecode hmake
  | ok remix =>
    rw [hmake] at hprocess
    rw [hprocess]
    cases hplace : tree.placeToWrite working o.outputPath with
    | error fault =>
      show CommandCourse words tree working drawn
        (remixEvents drawn buffer o ++ [savingEvent o] ++ []) (.error (.unwritable fault))
      rw [List.append_nil]
      exact .unwritable hcommand hread hdecode hmake hplace
    | ok place => exact .saved hcommand hread hdecode hmake hplace

/-- A command takes one of the courses. -/
theorem course_commandProcess (words : List String) (tree : FileTree) (working : Place)
    (drawn : Float) : CommandCourse words tree working drawn
      (commandProcess words tree working drawn).events
      (commandProcess words tree working drawn).outcome := by
  cases hcommand : Command.ofWords words with
  | error fault =>
    rw [commandProcess, hcommand]
    exact .refused hcommand
  | ok command =>
    cases command with
    | help =>
      rw [commandProcess, hcommand]
      exact .help hcommand
    | run o =>
      have hrun : commandProcess words tree working drawn = o.run tree working drawn := by
        rw [commandProcess, hcommand]
        rfl
      rw [hrun]
      cases hread : tree.read working o.inputPath with
      | error fault =>
        rw [RunOptions.run, hread]
        exact .unreadable hcommand hread
      | ok file =>
        cases hdecode : (decodeWave file : Except WaveFault (SampleBuffer Float)) with
        | error fault =>
          have hprocess : o.process drawn (.ok file) = ⟨[], .error (.wave fault)⟩ := by
            show ((Journaled.ofExcept ((decodeWave file).mapError CommandError.wave)) >>= _) = _
            rw [hdecode]
            rfl
          rw [RunOptions.run, hread, hprocess]
          exact .undecodable hcommand hread hdecode
        | ok buffer => exact course_run hcommand hread hdecode

/-- Until a command fails it does no harm. -/
lemma CommandCourse.harmless {events : List CommandEvent} {e : CommandError}
    (h : CommandCourse words tree working drawn events (.error e)) :
    ∀ event ∈ events, event.Harmless := by
  cases h with
  | refused => exact nofun
  | unreadable => exact nofun
  | undecodable => exact nofun
  | notMade => exact harmless_remixEvents drawn _ _
  | unwritable =>
    refine List.forall_mem_append.mpr ⟨harmless_remixEvents drawn _ _, ?_⟩
    exact List.forall_mem_singleton.mpr nofun

/-! ## The end -/

/-- The last line of the log gives the code and the message of an error, and no line before is an
error, nor is a file written. -/
def CommandRun.Reports (r : CommandRun) (e : CommandError) : Prop :=
  ∃ kind before, e.kind? = some kind
    ∧ r.events = before ++ [.logged ⟨.error, kind.code ++ ": " ++ e.message⟩]
    ∧ ∀ event ∈ before, event.Harmless

/-- The input file of the options was read, decoded and remixed by their settings; the one file that
was written is the encoded remix, at the output path; and no line of the log is an error. -/
def CommandRun.Saves (r : CommandRun) (o : RunOptions) (tree : FileTree) (working : Place)
    (drawn : Float) : Prop :=
  ∃ file buffer remix place before,
    tree.read working o.inputPath = .ok file ∧ decodeWave file = .ok buffer
    ∧ (makeRemix .analyzer drawn buffer o.settings).outcome = .ok remix
    ∧ tree.placeToWrite working o.outputPath = .ok place
    ∧ r.events = before
        ++ [.wrote place (encodeWave remix.output), .logged ⟨.info, doneMessage remix⟩]
    ∧ (∀ event ∈ before, event.Harmless)
    ∧ r.files tree = tree.write place (encodeWave remix.output)
    ∧ (r.files tree).read working o.outputPath = .ok (encodeWave remix.output)

/-- A command that fails either reports the error and ends with the code 1, or leaves it to the
caller. -/
lemma runCommand_of_error {e : CommandError}
    (h : (commandProcess words tree working drawn).outcome = .error e) :
    (e.kind? = none ∧ (runCommand words tree working drawn).result = .error e)
      ∨ (runCommand words tree working drawn).result = .ok 1
        ∧ (runCommand words tree working drawn).Reports e
        ∧ (runCommand words tree working drawn).files tree = tree := by
  have hharmless := (h ▸ course_commandProcess words tree working drawn).harmless
  cases hkind : e.kind? with
  | none =>
    have hrun : runCommand words tree working drawn
        = ⟨(commandProcess words tree working drawn).events, .error e⟩ := by
      unfold runCommand CommandRun.ofProcess
      simp only [h, hkind]
    rw [hrun]
    exact .inl ⟨rfl, rfl⟩
  | some kind =>
    have hrun : runCommand words tree working drawn
        = ⟨(commandProcess words tree working drawn).events
            ++ [.logged ⟨.error, kind.code ++ ": " ++ e.message⟩], .ok 1⟩ := by
      unfold runCommand CommandRun.ofProcess
      simp only [h, hkind]
    rw [hrun]
    refine .inr ⟨rfl, ⟨kind, _, hkind, rfl, hharmless⟩, ?_⟩
    exact CommandRun.files_of_harmless hharmless _ _ tree

/-- A command that does not fail has helped or saved a file. -/
lemma runCommand_of_ok (h : (commandProcess words tree working drawn).outcome = .ok ()) :
    (runCommand words tree working drawn).result = .ok 0
      ∧ (Command.ofWords words = .ok .help
        ∨ ∃ o, Command.ofWords words = .ok (.run o)
          ∧ (runCommand words tree working drawn).Saves o tree working drawn) := by
  have hrun : runCommand words tree working drawn
      = ⟨(commandProcess words tree working drawn).events, .ok 0⟩ :=
    CommandRun.ofProcess_of_ok h
  have hcourse := course_commandProcess words tree working drawn
  rw [h] at hcourse
  rw [hrun]
  refine ⟨rfl, ?_⟩
  generalize (commandProcess words tree working drawn).events = events at hcourse
  cases hcourse with
  | help hcommand => exact .inl hcommand
  | @saved o file buffer remix place hcommand hread hdecode hmake hplace =>
    have hharmless : ∀ event ∈ remixEvents drawn buffer o ++ [savingEvent o], event.Harmless :=
      List.forall_mem_append.mpr
        ⟨harmless_remixEvents drawn buffer o, List.forall_mem_singleton.mpr nofun⟩
    have hfiles := CommandRun.files_of_harmless hharmless
      [.wrote place (encodeWave remix.output), .logged ⟨.info, doneMessage remix⟩] (.ok 0) tree
    refine .inr ⟨o, hcommand, file, buffer, remix, place, _, hread, hdecode, hmake, hplace, rfl,
      hharmless, hfiles, ?_⟩
    rw [hfiles]
    exact FileTree.read_write hplace _

end

/-- How a command ends agrees with what it leaves. With the exit code 1 an error is reported as the
last line and all files are as before; with the exit code 0 and unless help was asked for, the remix
of the input is saved at the output path; and an error that a command does not end by reporting is
none that it could report. -/
theorem runCommand_outcome [Memory] (words : List String) (tree : FileTree) (working : Place)
    (drawn : Float) :
    ((runCommand words tree working drawn).result = .ok 1 →
      (runCommand words tree working drawn).files tree = tree
        ∧ ∃ e, (commandProcess words tree working drawn).outcome = .error e
          ∧ (runCommand words tree working drawn).Reports e)
    ∧ ((runCommand words tree working drawn).result = .ok 0 → Command.ofWords words ≠ .ok .help →
      ∃ o, Command.ofWords words = .ok (.run o)
        ∧ (runCommand words tree working drawn).Saves o tree working drawn)
    ∧ (∀ e, (runCommand words tree working drawn).result = .error e → e.kind? = none)
    ∧ ((∃ e, (runCommand words tree working drawn).result = .error e)
      ∨ (runCommand words tree working drawn).result = .ok 0
      ∨ (runCommand words tree working drawn).result = .ok 1) := by
  cases houtcome : (commandProcess words tree working drawn).outcome with
  | error e =>
    rcases runCommand_of_error houtcome with ⟨hkind, hresult⟩ | ⟨hresult, hreports, hfiles⟩
    · rw [hresult]
      refine ⟨nofun, nofun, ?_, .inl ⟨e, rfl⟩⟩
      intro e' he'
      rwa [← Except.error.inj he']
    · rw [hresult]
      exact ⟨fun _ => ⟨hfiles, e, rfl, hreports⟩, nofun, nofun, .inr (.inr rfl)⟩
  | ok u =>
    obtain ⟨hresult, hended⟩ := runCommand_of_ok houtcome
    rw [hresult]
    exact ⟨nofun, fun _ hhelp => hended.resolve_left hhelp, nofun, .inr (.inl rfl)⟩

/-- A file that is not there ends a command with the code 1, and the click is saved. -/
theorem runCommand_outcome_click :
    (runCommand ["gone.wav"] clickTree [] 0.25).result = .ok 1
    ∧ (∃ before, (runCommand ["gone.wav"] clickTree [] 0.25).events
      = before ++ [.logged ⟨.error, "ERR_INPUT: File not found: gone.wav"⟩])
    ∧ (runCommand ["gone.wav"] clickTree [] 0.25).files clickTree = clickTree
    ∧ (runCommand ["in.wav", "-qs7.9", "-d", "0.5"] clickTree [] 0.25).result = .ok 0
    ∧ ∃ o, (runCommand ["in.wav", "-qs7.9", "-d", "0.5"] clickTree [] 0.25).Saves o clickTree []
        0.25 := by
  have hwords : CommandToken.ofWords ["gone.wav"] = [.operand "gone.wav"] := by cbv
  obtain ⟨o, hcommand, hpath⟩ : ∃ o, Command.ofWords ["gone.wav"] = .ok (.run o)
      ∧ o.inputPath = "gone.wav" := by
    rw [Command.ofWords, hwords]
    exact ⟨_, rfl, rfl⟩
  have hname : IsName "gone.wav" := ⟨by cbv, by decide, by cbv, by decide, by decide⟩
  have hread : clickTree.read [] o.inputPath = .error .missing := by
    rw [hpath, hname.read_eq]
    rfl
  have hgone : runCommand ["gone.wav"] clickTree [] 0.25
      = ⟨[.logged ⟨.error, "ERR_INPUT: " ++ ("File not found: " ++ o.inputPath)⟩], .ok 1⟩ := by
    rw [runCommand_of_run hcommand, RunOptions.run, hread]
    rfl
  have hresult : (runCommand ["gone.wav"] clickTree [] 0.25).result = .ok 1 := by rw [hgone]
  have hclick : CommandToken.ofWords ["in.wav", "-qs7.9", "-d", "0.5"]
      = [.operand "in.wav", .bare 'q', .withValue 's' (.attached "7.9"),
        .withValue 'd' (.nextWord "0.5")] := by cbv
  obtain ⟨hok, hlogged⟩ := @runCommand_clickTree _ _ 0.25 "7" hclick (by decide)
  obtain ⟨options, hrun, -⟩ := exists_run hok hlogged
  have hhelp : Command.ofWords ["in.wav", "-qs7.9", "-d", "0.5"] ≠ .ok .help := by
    rw [hrun]
    intro h
    cases h
  obtain ⟨hfiles, -⟩ := (runCommand_outcome ["gone.wav"] clickTree [] 0.25).1 hresult
  obtain ⟨o', -, hsaves⟩ := (runCommand_outcome _ clickTree [] 0.25).2.1 hok hhelp
  refine ⟨hresult, ?_, hfiles, hok, o', hsaves⟩
  rw [hgone, hpath]
  exact ⟨[], rfl⟩

end EndlessRemix
