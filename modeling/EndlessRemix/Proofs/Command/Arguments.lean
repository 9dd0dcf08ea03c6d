import EndlessRemix.Proofs.Command.Words
import EndlessRemix.Proofs.Except

/-!
# The command with another seed

A command line that asks for a run asks for the same run with every seed replaced, if the new one is
a number that does not look like a flag: all settings are as they were beside the seed. What looks
like a flag is refused in its place.
-/

namespace EndlessRemix

open CommandToken

/-! ## Checks -/

namespace CommandToken

variable {tokens : List CommandToken} {token : CommandToken} {seed : String}

lemma hasFlag_eq_any (f : Flag) (tokens : List CommandToken) :
    hasFlag f tokens = tokens.any (isFlag f) := rfl

/-- A seed in two words passes unless it looks like a flag. -/
lemma check_ofSeed (seed : String) : (ofSeed seed).check
    = if looksLikeFlag seed then .error (.ambiguousValue .seed "--seed") else .ok () := rfl

/-- A flag that passes and takes a value has one. -/
lemma exists_value {written : String} {value : FlagValue} {f : Flag} (hf : f.takesValue = true)
    (h : (flag (some f) written value).check = .ok ()) : value ≠ .missing := by
  rintro rfl
  rw [check, if_pos hf] at h
  cases h

/-- Of the tokens that pass exactly the seeds are replaced. -/
lemma reseed_of_check (h : token.check = .ok ()) (seed : String) :
    reseed seed token = if token.isFlag .seed then ofSeed seed else token := by
  cases token with
  | operand text => rfl
  | flag known written value =>
    by_cases hknown : known = some .seed
    · subst hknown
      rw [reseed_given (exists_value rfl h), if_pos rfl]
      rfl
    · simp [reseed, isFlag, hknown]

/-- Among tokens that pass, the new seed decides, if there is one. -/
lemma forM_check_reseed (h : ∀ token ∈ tokens, token.check = .ok ()) (seed : String) :
    (tokens.map (reseed seed)).forM check
      = if hasFlag .seed tokens then (ofSeed seed).check else .ok () := by
  induction tokens with
  | nil => rfl
  | cons token tokens ih =>
    have htoken := h token (List.mem_cons_self ..)
    have hrest := ih fun t ht => h t (List.mem_cons_of_mem _ ht)
    show ((reseed seed token).check >>= fun _ => (tokens.map (reseed seed)).forM check) = _
    rw [hrest, reseed_of_check htoken, hasFlag_eq_any, hasFlag_eq_any, List.any_cons]
    by_cases hseed : token.isFlag .seed = true
    · rw [if_pos hseed, hseed, Bool.true_or, if_pos rfl, check_ofSeed]
      split_ifs <;> rfl
    · rw [if_neg hseed, Bool.eq_false_of_not_eq_true hseed, Bool.false_or, htoken]
      rfl

/-! ## What the tokens say -/

lemma isFlag_reseed (f : Flag) (seed : String) (token : CommandToken) :
    (reseed seed token).isFlag f = token.isFlag f := by
  cases token with
  | operand text => rfl
  | flag known written value =>
    rw [reseed]
    split_ifs with h
    · rw [h.1]
      rfl
    · rfl

lemma valueOf?_reseed {f : Flag} (hf : f ≠ .seed) (seed : String) (token : CommandToken) :
    (reseed seed token).valueOf? f = token.valueOf? f := by
  cases token with
  | operand text => rfl
  | flag known written value =>
    rw [reseed]
    split_ifs with h
    · have hne : ¬Flag.seed = f := Ne.symm hf
      rw [h.1]
      cases value <;> simp [ofSeed, valueOf?, hne]
    · rfl

lemma valueOf?_seed_reseed (seed : String) (token : CommandToken) :
    (reseed seed token).valueOf? .seed = (token.valueOf? .seed).map fun _ => seed := by
  cases token with
  | operand text => rfl
  | flag known written value =>
    by_cases h : known = some .seed <;> cases value <;> simp [reseed, ofSeed, valueOf?, h]

end CommandToken

/-- The second tokens say what the first do, but for the seed, and pass if their seed does. -/
structure Reseeded (seed : String) (tokens tokens' : List CommandToken) : Prop where
  operands_eq : operands tokens' = operands tokens
  hasFlag_eq : ∀ f, f ≠ .seed → hasFlag f tokens' = hasFlag f tokens
  lastValue?_eq : ∀ f, f ≠ .seed → lastValue? f tokens' = lastValue? f tokens
  seed_eq : lastValue? .seed tokens' = some seed
  check_eq : tokens'.forM check = (ofSeed seed).check

section

variable {tokens tokens' : List CommandToken} {seed : String}

/-- A seed that is given and passes has a value. -/
lemma exists_lastValue? (h : ∀ token ∈ tokens, token.check = .ok ())
    (hseed : hasFlag .seed tokens = true) : ∃ text, lastValue? .seed tokens = some text := by
  obtain ⟨token, hmem, hflag⟩ := List.any_eq_true.mp hseed
  cases token with
  | operand text => cases hflag
  | flag known written value =>
    obtain rfl := of_decide_eq_true hflag
    have hvalue : ∃ text, (flag (some .seed) written value).valueOf? .seed = some text := by
      cases value with
      | missing => exact absurd rfl (exists_value rfl (h _ hmem))
      | attached text => exact ⟨text, rfl⟩
      | nextWord text => exact ⟨text, rfl⟩
    obtain ⟨text, htext⟩ := hvalue
    have hlist : tokens.filterMap (valueOf? .seed) ≠ [] :=
      List.ne_nil_of_mem (List.mem_filterMap.mpr ⟨_, hmem, htext⟩)
    exact ⟨_, List.getLast?_eq_some_getLast hlist⟩

/-- The tokens with every seed replaced. -/
lemma reseeded_map (h : ∀ token ∈ tokens, token.check = .ok ())
    (hseed : hasFlag .seed tokens = true) (seed : String) :
    Reseeded seed tokens (tokens.map (reseed seed)) where
  operands_eq := by
    rw [operands, List.filterMap_map]
    refine List.filterMap_congr fun token _ => ?_
    cases token with
    | operand text => rfl
    | flag known written value =>
      simp only [Function.comp_apply, reseed]
      split_ifs <;> rfl
  hasFlag_eq f _ := by
    rw [hasFlag_eq_any, List.any_map, hasFlag_eq_any]
    exact congrArg tokens.any (funext fun token => isFlag_reseed f seed token)
  lastValue?_eq f hf := by
    rw [lastValue?, List.filterMap_map, lastValue?]
    congr 1
    exact List.filterMap_congr fun token _ => valueOf?_reseed hf seed token
  seed_eq := by
    obtain ⟨text, htext⟩ := exists_lastValue? h hseed
    have hvalues : (tokens.map (reseed seed)).filterMap (valueOf? .seed)
        = (tokens.filterMap (valueOf? .seed)).map fun _ => seed := by
      rw [List.filterMap_map, List.map_filterMap]
      exact List.filterMap_congr fun token _ => valueOf?_seed_reseed seed token
    rw [lastValue?] at htext
    rw [lastValue?, hvalues, List.getLast?_map, htext]
    rfl
  check_eq := by
    rw [forM_check_reseed h, if_pos hseed]

/-- A seed in front of tokens that have none. -/
lemma reseeded_cons (h : ∀ token ∈ tokens, token.check = .ok ())
    (hseed : hasFlag .seed tokens = false) (seed : String) :
    Reseeded seed tokens (ofSeed seed :: tokens) where
  operands_eq := rfl
  hasFlag_eq f hf := by
    have hne : (ofSeed seed).isFlag f = false := decide_eq_false fun heq =>
      hf (Option.some.inj heq).symm
    rw [hasFlag_eq_any, List.any_cons, hne, Bool.false_or]
    rfl
  lastValue?_eq f hf := by
    have hne : (ofSeed seed).valueOf? f = none := if_neg fun heq => hf (Option.some.inj heq).symm
    rw [lastValue?, List.filterMap_cons_none hne, lastValue?]
  seed_eq := by
    have hnone : tokens.filterMap (valueOf? .seed) = [] := by
      refine List.filterMap_eq_nil_iff.mpr fun token hmem => ?_
      have hflag : token.isFlag .seed = false :=
        Bool.eq_false_of_not_eq_true (List.any_eq_false.mp hseed token hmem)
      cases token with
      | operand text => rfl
      | flag known written value =>
        have hknown : ¬known = some .seed := of_decide_eq_false hflag
        cases value <;> simp [valueOf?, hknown]
    have hvalue : (ofSeed seed).valueOf? .seed = some seed := rfl
    rw [lastValue?, List.filterMap_cons_some hvalue, hnone]
    rfl
  check_eq := by
    show ((ofSeed seed).check >>= fun _ => tokens.forM check) = _
    rw [forM_eq_ok.mpr h, check_ofSeed]
    split_ifs <;> rfl

end

/-! ## What the command is -/

section

variable {tokens tokens' : List CommandToken} {seed input : String} {o : RunOptions}

/-- The settings of a run with another seed. -/
def RunOptions.withSeed (o : RunOptions) (seed : Float) : RunOptions :=
  { o with settings := { o.settings with seed := Setting.ofNumber seed } }

lemma numberOf?_eq_some {f : Flag} {text : String} {value : Float}
    (htext : lastValue? f tokens = some text) (hvalue : Numeral.read? text = some value) :
    numberOf? f tokens = .ok (some value) := by
  rw [numberOf?, htext]
  simp only [hvalue]

/-- The same run with another seed, if that is a number. -/
lemma Reseeded.runOf_eq (h : Reseeded seed tokens tokens') {value : Float}
    (hvalue : Numeral.read? seed = some value) (hrun : runOf input tokens = .ok o) :
    runOf input tokens' = .ok (o.withSeed value) := by
  have hnumber : ∀ f, f ≠ .seed → numberOf? f tokens' = numberOf? f tokens := by
    intro f hf
    rw [numberOf?, h.lastValue?_eq f hf, numberOf?]
  simp only [runOf, bind_eq_ok, pure_eq_ok] at hrun
  obtain ⟨minutes, hminutes, threshold, hthreshold, prob, hprob, before, hbefore, rfl⟩ := hrun
  rw [runOf, hnumber .duration (by decide), hnumber .threshold (by decide),
    hnumber .prob (by decide), hminutes, hthreshold, hprob, numberOf?_eq_some h.seed_eq hvalue,
    h.hasFlag_eq .strict (by decide), h.hasFlag_eq .quiet (by decide),
    h.lastValue?_eq .output (by decide)]
  rfl

/-- A run is asked for by tokens that pass, without a request for help, and with one operand. -/
lemma ofTokens_eq_run : Command.ofTokens tokens = .ok (.run o)
    ↔ tokens.forM check = .ok () ∧ hasFlag .help tokens = false
      ∧ ∃ input, operands tokens = [input] ∧ runOf input tokens = .ok o := by
  rw [Command.ofTokens, bind_eq_ok]
  constructor
  · rintro ⟨⟨⟩, hcheck, h⟩
    split_ifs at h with hhelp
    · cases h
    · refine ⟨hcheck, by simpa using hhelp, ?_⟩
      split at h
      · cases h
      · rename_i input hinput
        obtain ⟨o', ho', heq⟩ := bind_eq_ok.mp h
        obtain rfl := Command.run.inj (Except.ok.inj heq)
        exact ⟨input, hinput, ho'⟩
      · cases h
  · rintro ⟨hcheck, hhelp, input, hinput, ho⟩
    refine ⟨(), hcheck, ?_⟩
    rw [if_neg (by simp [hhelp]), hinput]
    simp only [ho]
    rfl

/-- A seed that looks like a flag is refused. -/
lemma Reseeded.ofTokens_eq_error (h : Reseeded seed tokens tokens')
    (hseed : looksLikeFlag seed = true) :
    Command.ofTokens tokens' = .error (.ambiguousValue .seed "--seed") := by
  have hcheck := h.check_eq
  rw [check_ofSeed, if_pos hseed] at hcheck
  rw [Command.ofTokens, hcheck]
  rfl

/-- Any other seed gives the same run with it. -/
lemma Reseeded.ofTokens_eq_run (h : Reseeded seed tokens tokens')
    (hseed : ¬looksLikeFlag seed = true) {value : Float} (hvalue : Numeral.read? seed = some value)
    (hrun : Command.ofTokens tokens = .ok (.run o)) :
    Command.ofTokens tokens' = .ok (.run (o.withSeed value)) := by
  have hcheck := h.check_eq
  rw [check_ofSeed, if_neg hseed] at hcheck
  obtain ⟨-, hhelp, input, hinput, ho⟩ := EndlessRemix.ofTokens_eq_run.mp hrun
  refine EndlessRemix.ofTokens_eq_run.mpr
    ⟨hcheck, ?_, input, h.operands_eq.trans hinput, h.runOf_eq hvalue ho⟩
  rw [h.hasFlag_eq .help (by decide), hhelp]

end

/-- A command line with `seed` for every seed, or in front if there is none. -/
def replayWords (seed : String) (words : List String) : List String :=
  if hasFlag .seed (ofWords words) then reseedWords seed words else "--seed" :: seed :: words

/-- The tokens of a command line with another seed say the same, but for the seed. -/
lemma reseeded_replayWords {words : List String} {o : RunOptions}
    (hrun : Command.ofWords words = .ok (.run o)) (seed : String) :
    Reseeded seed (ofWords words) (ofWords (replayWords seed words)) := by
  have h := forM_eq_ok.mp (ofTokens_eq_run.mp hrun).1
  by_cases hseed : hasFlag .seed (ofWords words) = true
  · rw [replayWords, if_pos hseed, ofWords_reseed]
    exact reseeded_map h hseed seed
  · rw [replayWords, if_neg hseed]
    have hscan : ofWords ("--seed" :: seed :: words) = ofSeed seed :: ofWords words := scan_seed ..
    rw [hscan]
    exact reseeded_cons h (by simpa using hseed) seed

end EndlessRemix
