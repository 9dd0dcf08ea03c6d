import EndlessRemix.Command.Run
import EndlessRemix.Proofs.Command.Arguments
import EndlessRemix.Proofs.Files
import EndlessRemix.Proofs.Number.Text
import EndlessRemix.Proofs.Remix.Analyzed
import EndlessRemix.Proofs.Wave.RoundTrip

/-!
# Replaying a command

A run that writes a file ends with a line that names its seed. The command line with this seed does
the same again, whatever is drawn; but a seed below zero is refused, because in a word of its own it
looks like a flag.
-/

namespace EndlessRemix

/-! ## A seed that is read again -/

/-- Settings with a seed whose whole part was the seed give the same options, and nothing is
drawn. -/
lemma RemixSettings.resolve_withSeed {drawn : Float} {s : RemixSettings Float}
    {o : RemixOptions Float} {y : Float} (h : s.resolve drawn = .ok o)
    (hfinite : Scalar.isFinite y = true) (hseed : Scalar.truncate y = o.seed) (drawn' : Float) :
    { s with seed := Setting.ofNumber y }.resolve drawn' = .ok o := by
  have hgives := RemixSettings.resolve_eq_ok.mp h
  refine RemixSettings.resolve_eq_ok.mpr { hgives with drawnSeed := nofun, givenSeed := ?_ }
  rintro setting ⟨⟩
  exact Setting.seed_eq_ok.mpr ⟨y, ⟨rfl, hfinite⟩, hseed⟩

/-- A whole double that is not below zero is printed as no flag, and its text is read as a number
with this whole part. -/
lemma read?_of_integral {x : Float} {k : ℕ} (hx : x = Scalar.ofWhole (.int k))
    (hvalue : Double.value? x = some (k : ℚ)) :
    looksLikeFlag (numberText x) = false
      ∧ ∃ y, Numeral.read? (numberText x) = some y ∧ Scalar.isFinite y = true
        ∧ Scalar.truncate y = x := by
  obtain ⟨⟨y, hread, hy⟩, c, cs, hc, htext⟩ := read?_numberText hvalue
  refine ⟨?_, y, hread, (Double.isFinite_iff y).mpr ⟨k, hy⟩, ?_⟩
  · have hdash : c ≠ '-' := by
      rintro rfl
      exact absurd hc (by decide)
    rw [looksLikeFlag, htext, String.toList_ofList]
    split
    · rename_i heq
      exact absurd (List.cons.inj heq).1 hdash
    · rfl
  · have hwhole : Scalar.whole y = .int k := Double.whole_of_value (by exact_mod_cast hy)
    rw [Scalar.truncate, hwhole, hx]

/-- The text of a whole double below zero looks like a flag. -/
lemma looksLikeFlag_of_negative {x : Float} {k : ℤ} (hk : k < 0)
    (hvalue : Double.value? x = some (k : ℚ)) : looksLikeFlag (numberText x) = true := by
  obtain ⟨n, rfl⟩ := Int.exists_eq_neg_ofNat hk.le
  have hn : 0 < n := by omega
  obtain ⟨c, cs, htext⟩ := numberText_negative hn (by simpa using hvalue)
  rw [looksLikeFlag, htext, String.toList_ofList]
  rfl

/-! ## A run that ends well -/

namespace Journaled

variable {ω ε α β : Type}

/-- A process that goes on after it has succeeded. -/
lemma bind_of_outcome {p : Journaled ω ε α} {a : α} (h : p.outcome = .ok a)
    (next : α → Journaled ω ε β) :
    (p >>= next) = ⟨p.events ++ (next a).events, (next a).outcome⟩ := by
  obtain ⟨events, outcome⟩ := p
  subst h
  rfl

/-- A process that ends as it has failed. -/
lemma bind_of_error {p : Journaled ω ε α} {e : ε} (h : p.outcome = .error e)
    (next : α → Journaled ω ε β) : (p >>= next) = ⟨p.events, .error e⟩ := by
  obtain ⟨events, outcome⟩ := p
  subst h
  rfl

end Journaled

/-! The log of a run names the seed once. -/

/-- Texts that begin differently are different, whatever follows. -/
lemma append_ne_append {a b : String} (n : ℕ) (ha : n ≤ a.toList.length) (hb : n ≤ b.toList.length)
    (hne : a.toList.take n ≠ b.toList.take n) (s t : String) : a ++ s ≠ b ++ t := by
  intro h
  have htake := congrArg (fun text => text.toList.take n) h
  simp only [String.toList_append, List.take_append_of_le_length ha,
    List.take_append_of_le_length hb] at htake
  exact hne htake

/-- No notice of a remix reads like the last line of a run. -/
lemma Notice.message_ne {notice : Notice Float} (h : notice.level = .info) (shown : String) :
    notice.message ≠ "Done! Replay with --seed " ++ shown := by
  rw [Notice.message.eq_def]
  cases notice with
  | degenerate cause => cases h
  | _ =>
    dsimp only
    repeat rw [String.append_assoc]
    exact append_ne_append 2 (by decide) (by decide) (by decide) _ _

section

variable [Memory] {o : RunOptions} {tree : FileTree} {working : Place} {drawn : Float}

/-- A run that ends well has read and decoded its input, and made a remix of it. -/
lemma RunOptions.of_process {input : Except FileFault (Array UInt8)} {remix : Remix Float}
    (h : (o.process drawn input).outcome = .ok remix) :
    ∃ buffer, (makeRemix .analyzer drawn buffer o.settings).outcome = .ok remix := by
  rw [RunOptions.process] at h
  simp only [Journaled.outcome_bind_eq_ok, Journaled.outcome_ofExcept] at h
  obtain ⟨file, -, buffer, -, made, hmade, -, -, hremix⟩ := h
  obtain rfl : made = remix := Except.ok.inj hremix
  exact ⟨buffer, mapError_eq_ok.mp hmade⟩

/-- Until its remix is made, a run that ends well does not name the seed. -/
lemma RunOptions.not_mem_process {input : Except FileFault (Array UInt8)} {remix : Remix Float}
    (h : (o.process drawn input).outcome = .ok remix) (shown : String) :
    .logged ⟨.info, "Done! Replay with --seed " ++ shown⟩ ∉ (o.process drawn input).events := by
  rw [RunOptions.process] at h ⊢
  obtain ⟨file, hfile, h⟩ := Journaled.outcome_bind_eq_ok.mp h
  obtain ⟨buffer, hbuffer, h⟩ := Journaled.outcome_bind_eq_ok.mp h
  obtain ⟨made, hmade, -⟩ := Journaled.outcome_bind_eq_ok.mp h
  rw [Journaled.outcome_ofExcept] at hfile hbuffer
  rw [hfile, Journaled.ofExcept_ok_bind, hbuffer, Journaled.ofExcept_ok_bind,
    Journaled.bind_of_outcome hmade]
  intro hmem
  rcases List.mem_append.mp hmem with hnotice | hsaving
  · obtain ⟨notice, -, heq⟩ := List.mem_map.mp hnotice
    have hentry := LogEntry.mk.inj (CommandEvent.logged.inj heq)
    exact Notice.message_ne hentry.1 shown hentry.2
  · have hentry := LogEntry.mk.inj (CommandEvent.logged.inj (List.mem_singleton.mp hsaving))
    rw [String.append_assoc] at hentry
    exact append_ne_append 1 (by decide) (by decide) (by decide) _ _ hentry.2.symm

/-- The last that a run does is to write the file and to name the seed. -/
lemma RunOptions.of_run (h : (o.run tree working drawn).outcome = .ok ()) :
    ∃ remix place,
      (o.process drawn (tree.read working o.inputPath)).outcome = .ok remix
        ∧ (o.run tree working drawn).events
          = (o.process drawn (tree.read working o.inputPath)).events
            ++ [.wrote place (encodeWave remix.output), .logged ⟨.info, doneMessage remix⟩] := by
  rw [RunOptions.run] at h ⊢
  obtain ⟨remix, hremix, h⟩ := Journaled.outcome_bind_eq_ok.mp h
  obtain ⟨place, hplace, -⟩ := Journaled.outcome_bind_eq_ok.mp h
  rw [Journaled.outcome_ofExcept] at hplace
  refine ⟨remix, place, hremix, ?_⟩
  rw [Journaled.bind_of_outcome hremix, hplace]
  rfl

/-- What a command that asks for a run does. -/
lemma runCommand_of_run {words : List String} (h : Command.ofWords words = .ok (.run o)) :
    runCommand words tree working drawn = .ofProcess (o.run tree working drawn) := by
  rw [runCommand, commandProcess, h]
  rfl

omit [Memory] in
/-- A process that ends well ends with the exit code 0. -/
lemma CommandRun.ofProcess_of_ok {p : CommandProcess Unit} (h : p.outcome = .ok ()) :
    CommandRun.ofProcess p = ⟨p.events, .ok 0⟩ := by
  rw [CommandRun.ofProcess, h]

omit [Memory] in
/-- Only a process that ends well ends with the exit code 0. -/
lemma CommandRun.outcome_of_result {p : CommandProcess Unit}
    (h : (CommandRun.ofProcess p).result = .ok 0) : p.outcome = .ok () := by
  cases hp : p.outcome with
  | ok u => rfl
  | error e =>
    rw [CommandRun.ofProcess, hp] at h
    cases hkind : e.kind? with
    | none => simp [hkind] at h
    | some kind => simp [hkind] at h

/-- A command that ends well and names a seed is a run that ends well. -/
lemma exists_run {words : List String} {entry : LogEntry}
    (hok : (runCommand words tree working drawn).result = .ok 0)
    (hlogged : .logged entry ∈ (runCommand words tree working drawn).events) :
    ∃ o, Command.ofWords words = .ok (.run o) ∧ (o.run tree working drawn).outcome = .ok () := by
  have houtcome := CommandRun.outcome_of_result hok
  cases hcommand : Command.ofWords words with
  | error fault =>
    rw [commandProcess, hcommand] at houtcome
    cases houtcome
  | ok command =>
    cases command with
    | help =>
      -- the help text is printed, not logged
      have hhelp : runCommand words tree working drawn = ⟨[.printed usage], .ok 0⟩ := by
        rw [runCommand, commandProcess, hcommand]
        rfl
      rw [hhelp, List.mem_singleton] at hlogged
      cases hlogged
    | run o =>
      rw [runCommand_of_run hcommand] at hok
      exact ⟨o, rfl, CommandRun.outcome_of_result hok⟩

/-- A run ends well with a file that can be read and decoded, a remix, and a place for it. -/
lemma RunOptions.outcome_run {file : Array UInt8} {buffer : SampleBuffer Float}
    {remix : Remix Float} {place : Place} (hread : tree.read working o.inputPath = .ok file)
    (hdecode : decodeWave file = .ok buffer)
    (hmake : (makeRemix .analyzer drawn buffer o.settings).outcome = .ok remix)
    (hplace : tree.placeToWrite working o.outputPath = .ok place) :
    (o.run tree working drawn).outcome = .ok ()
      ∧ .logged ⟨.info, doneMessage remix⟩ ∈ (o.run tree working drawn).events := by
  have hprocess : (o.process drawn (.ok file)).outcome = .ok remix := by
    have hremix : (remixProcess (makeRemix .analyzer drawn buffer o.settings)).outcome
        = .ok remix := mapError_eq_ok.mpr hmake
    show ((Journaled.ofExcept ((decodeWave file).mapError CommandError.wave)) >>= _).outcome = _
    rw [hdecode]
    exact Journaled.outcome_bind_eq_ok.mpr
      ⟨buffer, rfl, Journaled.outcome_bind_eq_ok.mpr ⟨remix, hremix, rfl⟩⟩
  rw [RunOptions.run, hread, Journaled.bind_of_outcome hprocess, hplace]
  exact ⟨rfl, List.mem_append_right _ (List.mem_cons_of_mem _ (List.mem_singleton_self _))⟩

/-- A run depends on the settings and on what is drawn only through the remix. -/
lemma RunOptions.run_withSeed {y : Float} {drawn' : Float}
    (h : ∀ buffer, makeRemix .analyzer drawn' buffer (o.withSeed y).settings
      = makeRemix .analyzer drawn buffer o.settings) :
    (o.withSeed y).run tree working drawn' = o.run tree working drawn := by
  have hprocess : ∀ input, (o.withSeed y).process drawn' input = o.process drawn input := by
    intro input
    simp only [RunOptions.process, h]
    rfl
  rw [RunOptions.run, hprocess]
  rfl

end

/-! ## A run on a click -/

lemma decodeWave_clickSong : decodeWave (encodeWave clickSong) = .ok clickSong := by
  have hwritable : clickSong.Writable :=
    { check := check_singleton _ _
      channels := by decide
      sampleRate := ⟨50, by norm_num, by norm_num, rfl⟩
      size := by
        rw [frameCount_clickSong]
        decide }
  have hloud : (⟨0xBF800000⟩ : Sample).quantized = ⟨0xBF800000⟩ := by decide
  have hsilent : (⟨0⟩ : Sample).quantized = ⟨0⟩ := by decide
  have hsame : clickSong.mapSamples Sample.quantized = clickSong := by
    rw [clickSong, SampleBuffer.mapSamples, List.map_singleton, Array.map_ofFn]
    congr 3
    funext i
    show (if i.val = 1024 then (⟨0xBF800000⟩ : Sample) else ⟨0⟩).quantized = _
    split_ifs
    · exact hloud
    · exact hsilent
  rw [decodeWave_encodeWave hwritable, hsame]

/-- The click as the only file. -/
def clickTree : FileTree := ⟨[(["in.wav"], .file (encodeWave clickSong))]⟩

/-- The tokens ask for a run on the click that ends with this seed, with settings that are like the
standard ones where it matters. -/
def asksForClick (tokens : List CommandToken) (drawn : Float) (shown : String) : Bool :=
  match Command.ofTokens tokens with
  | .ok (.run o) =>
    match o.settings.resolve drawn with
    | .ok options => decide (o.inputPath = "in.wav" ∧ o.outputPath = "infinite.wav"
        ∧ options.analysis = .standard ∧ options.degenerateGraph = .warn
        ∧ (Scalar.whole
            (frameTarget options.targetDurationSeconds (Scalar.ofNat 50))).toLength?.isSome = true
        ∧ numberText options.seed = shown)
    | .error _ => false
  | _ => false

/-- Such a run ends well. -/
lemma runCommand_clickTree {words : List String} {tokens : List CommandToken} {drawn : Float}
    {shown : String} (hwords : CommandToken.ofWords words = tokens)
    (hasks : asksForClick tokens drawn shown = true) :
    (runCommand words clickTree [] drawn).result = .ok 0
      ∧ .logged ⟨.info, "Done! Replay with --seed " ++ shown⟩
        ∈ (runCommand words clickTree [] drawn).events := by
  subst hwords
  rw [asksForClick] at hasks
  split at hasks
  · rename_i o hcommand
    split at hasks
    · rename_i options hresolve
      obtain ⟨hinput, houtput, hanalysis, hpolicy, hlength, rfl⟩ := of_decide_eq_true hasks
      have hinputName : IsName "in.wav" := ⟨by cbv, by decide, by cbv, by decide, by decide⟩
      have houtputName : IsName "infinite.wav" := ⟨by cbv, by decide, by cbv, by decide, by decide⟩
      have hread : clickTree.read [] o.inputPath = .ok (encodeWave clickSong) := by
        rw [hinput, hinputName.read_eq]
        rfl
      have hplace : clickTree.placeToWrite [] o.outputPath = .ok ["infinite.wav"] := by
        rw [houtput]
        exact houtputName.placeToWrite_eq (by rintro ⟨⟩)
      obtain ⟨remix, hmake⟩ := exists_remix_clickSong (by decide) hresolve hanalysis hpolicy hlength
      have hoptions := resolve_of_makeRemix hmake
      rw [hresolve] at hoptions
      obtain rfl := Except.ok.inj hoptions
      obtain ⟨hok, hlogged⟩ := RunOptions.outcome_run hread decodeWave_clickSong hmake hplace
      rw [runCommand_of_run hcommand, CommandRun.ofProcess_of_ok hok]
      exact ⟨rfl, hlogged⟩
    · cases hasks
  · cases hasks

/-! ## The replay -/

/-- A command that ends well and names a seed has written a file just before. The seed is the text
of a whole number. If that is not below zero, the same command line with this seed, given in two
words, does exactly the same, whatever is drawn. If it is below zero, the two words are refused, and
nothing is written. -/
theorem runCommand_replay [Memory] {words : List String} {tree : FileTree} {working : Place}
    {drawn : Float} {shown : String} (h0 : 0 ≤ drawn) (h1 : drawn < 1)
    (hok : (runCommand words tree working drawn).result = .ok 0)
    (hlogged : .logged ⟨.info, "Done! Replay with --seed " ++ shown⟩
      ∈ (runCommand words tree working drawn).events) :
    ∃ (before : List CommandEvent) (place : Place) (bytes : Array UInt8) (seed : Float) (k : ℤ),
      runCommand words tree working drawn
          = ⟨before ++ [.wrote place bytes,
              .logged ⟨.info, "Done! Replay with --seed " ++ shown⟩], .ok 0⟩
      ∧ shown = numberText seed ∧ Double.value? seed = some (k : ℚ)
      ∧ (0 ≤ k → ∀ drawn', runCommand (replayWords shown words) tree working drawn'
          = runCommand words tree working drawn)
      ∧ (k < 0 → ∀ drawn', runCommand (replayWords shown words) tree working drawn'
          = ⟨[.logged ⟨.error, "ERR_CONFIGURATION: "
              ++ (ArgumentFault.ambiguousValue .seed "--seed").message⟩], .ok 1⟩) := by
  obtain ⟨o, hcommand, hrun⟩ := exists_run hok hlogged
  obtain ⟨remix, place, hremix, hevents⟩ := RunOptions.of_run hrun
  obtain ⟨buffer, hmake⟩ := RunOptions.of_process hremix
  have hresolve := resolve_of_makeRemix hmake
  obtain ⟨k, hseed, hvalue⟩ :=
    (RemixSettings.resolve_eq_ok.mp hresolve).integral_seed fun _ => ⟨h0, h1⟩
  have hcourse : runCommand words tree working drawn
      = ⟨(o.process drawn (tree.read working o.inputPath)).events
          ++ [.wrote place (encodeWave remix.output), .logged ⟨.info, doneMessage remix⟩],
        .ok 0⟩ := by
    rw [runCommand_of_run hcommand, CommandRun.ofProcess_of_ok hrun, hevents]
  -- the seed is named at the end and nowhere else
  obtain rfl : shown = numberText remix.options.seed := by
    rw [hcourse] at hlogged
    rcases List.mem_append.mp hlogged with hbefore | hlast
    · exact absurd hbefore (RunOptions.not_mem_process hremix shown)
    · rcases List.mem_pair.mp hlast with heq | heq
      · cases heq
      · have hentry := LogEntry.mk.inj (CommandEvent.logged.inj heq)
        exact (String.append_right_inj _).mp hentry.2
  refine ⟨_, place, encodeWave remix.output, remix.options.seed, k, hcourse, rfl, hvalue, ?_, ?_⟩
  · intro hk drawn'
    obtain ⟨n, rfl⟩ := Int.eq_ofNat_of_zero_le hk
    obtain ⟨hflag, y, hread, hfinite, htruncate⟩ := read?_of_integral hseed (by exact_mod_cast hvalue)
    have hcommand' : Command.ofWords (replayWords (numberText remix.options.seed) words)
        = .ok (.run (o.withSeed y)) :=
      (reseeded_replayWords hcommand _).ofTokens_eq_run (by simp [hflag]) hread hcommand
    have hresolve' := RemixSettings.resolve_withSeed hresolve hfinite htruncate drawn'
    rw [runCommand_of_run hcommand', runCommand_of_run hcommand, RunOptions.run_withSeed]
    intro buffer
    rw [makeRemix_of_resolve hresolve]
    exact makeRemix_of_resolve hresolve' _ _
  · intro hk drawn'
    have hcommand' : Command.ofWords (replayWords (numberText remix.options.seed) words)
        = .error (.ambiguousValue .seed "--seed") :=
      (reseeded_replayWords hcommand _).ofTokens_eq_error (looksLikeFlag_of_negative hk hvalue)
    rw [runCommand, commandProcess, hcommand']
    rfl

/-- A seed with a fraction, at the end of a group of letters, is replayed by its whole part in two
words. -/
theorem runCommand_replay_click :
    (runCommand ["in.wav", "-qs7.9", "-d", "0.5"] clickTree [] 0.25).result = .ok 0
      ∧ .logged ⟨.info, "Done! Replay with --seed 7"⟩
        ∈ (runCommand ["in.wav", "-qs7.9", "-d", "0.5"] clickTree [] 0.25).events
      ∧ ∀ drawn', runCommand ["in.wav", "-q", "--seed", "7", "-d", "0.5"] clickTree [] drawn'
          = runCommand ["in.wav", "-qs7.9", "-d", "0.5"] clickTree [] 0.25 := by
  have hwords : CommandToken.ofWords ["in.wav", "-qs7.9", "-d", "0.5"]
      = [.operand "in.wav", .bare 'q', .withValue 's' (.attached "7.9"),
        .withValue 'd' (.nextWord "0.5")] := by cbv
  have hreplay : replayWords "7" ["in.wav", "-qs7.9", "-d", "0.5"]
      = ["in.wav", "-q", "--seed", "7", "-d", "0.5"] := by cbv
  obtain ⟨hok, hlogged⟩ := @runCommand_clickTree _ _ 0.25 "7" hwords (by decide)
  obtain ⟨-, -, -, seed, k, -, hshown, hvalue, hagain, -⟩ :=
    runCommand_replay (by decide) (by decide) hok hlogged
  have hk : 0 ≤ k := by
    by_contra hneg
    have hflag := looksLikeFlag_of_negative (not_le.mp hneg) hvalue
    rw [← hshown] at hflag
    cases hflag
  exact ⟨hok, hlogged, hreplay ▸ hagain hk⟩

/-- It is not true that every run can be replayed with the seed it names: one with a seed below zero
is refused. -/
theorem not_runCommand_replay :
    ¬∀ (words : List String) (tree : FileTree) (working place : Place) (bytes : Array UInt8)
      (drawn : Float) (shown : String), 0 ≤ drawn → drawn < 1 →
        (runCommand words tree working drawn).result = .ok 0 →
        .wrote place bytes ∈ (runCommand words tree working drawn).events →
        .logged ⟨.info, "Done! Replay with --seed " ++ shown⟩
          ∈ (runCommand words tree working drawn).events →
        (runCommand (replayWords shown words) tree working drawn).result = .ok 0
          ∧ .wrote place bytes ∈ (runCommand (replayWords shown words) tree working drawn).events := by
  intro h
  have hwords : CommandToken.ofWords ["in.wav", "--seed=-12", "-d", "0.5"]
      = [.operand "in.wav", .flag (some .seed) "--seed" (.attached "-12"),
        .withValue 'd' (.nextWord "0.5")] := by cbv
  have hreplay : CommandToken.ofWords (replayWords "-12" ["in.wav", "--seed=-12", "-d", "0.5"])
      = [.operand "in.wav", .flag (some .seed) "--seed" (.nextWord "-12"),
        .withValue 'd' (.nextWord "0.5")] := by cbv
  obtain ⟨hok, hlogged⟩ := @runCommand_clickTree _ _ 0.25 "-12" hwords (by decide)
  obtain ⟨o, hcommand, hrun⟩ := exists_run hok hlogged
  obtain ⟨remix, place, -, hevents⟩ := RunOptions.of_run hrun
  have hwrote : .wrote place (encodeWave remix.output)
      ∈ (runCommand ["in.wav", "--seed=-12", "-d", "0.5"] clickTree [] 0.25).events := by
    rw [runCommand_of_run hcommand, CommandRun.ofProcess_of_ok hrun, hevents]
    exact List.mem_append_right _ (List.mem_cons_self ..)
  have hresult := (h _ _ _ _ _ _ _ (by decide) (by decide) hok hwrote hlogged).1
  have hrefused : Command.ofTokens [.operand "in.wav", .flag (some .seed) "--seed" (.nextWord "-12"),
      .withValue 'd' (.nextWord "0.5")] = .error (.ambiguousValue .seed "--seed") := rfl
  rw [runCommand, commandProcess, Command.ofWords, hreplay, hrefused] at hresult
  cases hresult

end EndlessRemix
