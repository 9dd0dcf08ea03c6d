import EndlessRemix.Command.Arguments
import Mathlib

/-!
# A command line with another seed

The words of a command line in which every seed that is given is replaced by the words `--seed` and
a text, wherever it stands: behind an equals sign, in the next word, or at the end of a group of
letters. The tokens are those of the command line with that seed, and all else is as it was.
-/

namespace EndlessRemix

namespace CommandToken

/-- The token is a flag, with a value or without. -/
def isFlag (f : Flag) : CommandToken → Bool
  | .operand _ => false
  | .flag known _ _ => known = some f

/-- The letter stands for a flag without a value, known or not, and does not end its group. -/
def isPlain (letter : Char) : Bool := letter ≠ '-' && !letterTakesValue letter

end CommandToken

open CommandToken

/-- A group of letters as a word, if there are any. -/
def groupWords (letters : List Char) : List String :=
  if letters.isEmpty then [] else [String.ofList ('-' :: letters)]

/-- The words of a command line with `seed` for every seed. -/
def reseedWords (seed : String) : List String → List String
  | [] => []
  | word :: words =>
    match word.toList with
    | ['-', '-'] => word :: words
    | '-' :: '-' :: c :: name =>
      if '=' ∈ name then
        (if (cutAtEquals word.toList).isFlag .seed then ["--seed", seed] else [word])
          ++ reseedWords seed words
      else
        let known := Flag.ofName? (String.ofList (c :: name))
        if known.any Flag.takesValue then
          match words with
          | [] => [word]
          | next :: words =>
            (if known = some .seed then ["--seed", seed] else [word, next]) ++ reseedWords seed words
        else word :: reseedWords seed words
    | '-' :: c :: letters =>
      let flags := groupWords ((c :: letters).takeWhile isPlain)
      match (c :: letters).dropWhile isPlain with
      | [] => word :: reseedWords seed words
      | '-' :: _ => word :: words
      | [letter] =>
        match words with
        | [] => [word]
        | next :: words =>
          (if Flag.ofLetter? letter = some .seed then flags ++ ["--seed", seed] else [word, next])
            ++ reseedWords seed words
      | letter :: _ =>
        (if Flag.ofLetter? letter = some .seed then flags ++ ["--seed", seed] else [word])
          ++ reseedWords seed words
    | _ => word :: reseedWords seed words

/-! ## Scanning word by word -/

namespace CommandToken

section

variable {word next : String} {words : List String} {c : Char} {name : List Char}

lemma scan_end (hword : word.toList = ['-', '-']) : scan [] (word :: words) = words.map operand := by
  rw [scan.eq_def]
  simp only [hword]

/-- A long name with an equals sign. -/
lemma scan_attached (hword : word.toList = '-' :: '-' :: c :: name) (hname : '=' ∈ name) :
    scan [] (word :: words) = cutAtEquals word.toList :: scan [] words := by
  rw [scan.eq_def]
  simp only [hword, if_pos hname]

/-- A long name that takes the next word. -/
lemma scan_next (hword : word.toList = '-' :: '-' :: c :: name) (hname : '=' ∉ name)
    (hvalue : (Flag.ofName? (String.ofList (c :: name))).any Flag.takesValue = true) :
    scan [] (word :: next :: words)
      = flag (Flag.ofName? (String.ofList (c :: name))) word (.nextWord next) :: scan [] words := by
  rw [scan.eq_def]
  simp only [hword, if_neg hname, if_pos hvalue]

/-- A long name that would take the next word, at the end. -/
lemma scan_missing (hword : word.toList = '-' :: '-' :: c :: name) (hname : '=' ∉ name)
    (hvalue : (Flag.ofName? (String.ofList (c :: name))).any Flag.takesValue = true) :
    scan [] [word] = [flag (Flag.ofName? (String.ofList (c :: name))) word .missing] := by
  rw [scan.eq_def]
  simp only [hword, if_neg hname, if_pos hvalue]

/-- A long name by itself. -/
lemma scan_alone (hword : word.toList = '-' :: '-' :: c :: name) (hname : '=' ∉ name)
    (hvalue : ¬(Flag.ofName? (String.ofList (c :: name))).any Flag.takesValue = true) :
    scan [] (word :: words)
      = flag (Flag.ofName? (String.ofList (c :: name))) word .missing :: scan [] words := by
  rw [scan.eq_def]
  simp only [hword, if_neg hname, if_neg hvalue]

lemma scan_group {letters : List Char} (hword : word.toList = '-' :: c :: letters) (hc : c ≠ '-') :
    scan [] (word :: words) = scan (c :: letters) words := by
  conv_lhs => rw [scan.eq_def]
  simp only [hword]
  split
  case h_1 h => exact absurd (List.cons.inj (List.cons.inj h).2).1 hc
  case h_2 h => exact absurd (List.cons.inj (List.cons.inj h).2).1 hc
  case h_3 h => rw [(List.cons.inj h).2]
  case h_4 h => exact absurd rfl (h c letters)

lemma scan_operand (hword : ∀ c letters, word.toList ≠ '-' :: c :: letters) :
    scan [] (word :: words) = operand word :: scan [] words := by
  rw [scan.eq_def]
  split <;> simp_all

/-! The letters of a group. -/

variable {letter : Char}

lemma scan_dash (rest : List Char) (words : List String) :
    scan ('-' :: rest) words = (ungroup rest ++ words).map operand := by
  rw [scan.eq_def]
  simp

lemma scan_letter (hletter : isPlain letter) (rest : List Char) (words : List String) :
    scan (letter :: rest) words = (lettersOf letter).map bare ++ scan rest words := by
  simp only [isPlain, Bool.and_eq_true, decide_eq_true_eq, Bool.not_eq_true'] at hletter
  rw [scan.eq_def]
  simp [hletter.1, hletter.2]

/-- A letter with its value in the next word. -/
lemma scan_letter_next (hletter : letter ≠ '-') (hvalue : letterTakesValue letter = true)
    (next : String) (words : List String) :
    scan [letter] (next :: words) = withValue letter (.nextWord next) :: scan [] words := by
  rw [scan.eq_def]
  simp [hletter, hvalue]

/-- A letter that would take the next word, at the end. -/
lemma scan_letter_missing (hletter : letter ≠ '-') (hvalue : letterTakesValue letter = true) :
    scan [letter] [] = [bare letter] := by
  rw [scan.eq_def]
  simp [hletter, hvalue]

/-- A letter with its value in the rest of the group. -/
lemma scan_letter_attached (hletter : letter ≠ '-') (hvalue : letterTakesValue letter = true)
    (d : Char) (rest : List Char) (words : List String) :
    scan (letter :: d :: rest) words
      = withValue letter (.attached (String.ofList (d :: rest))) :: scan [] words := by
  rw [scan.eq_def]
  simp [hletter, hvalue]

/-- The tokens of letters without values. -/
def ofLetters (letters : List Char) : List CommandToken :=
  letters.flatMap fun letter => (lettersOf letter).map bare

/-- Letters without values come first in the tokens of their group. -/
lemma scan_letters {letters : List Char} (hletters : ∀ letter ∈ letters, isPlain letter)
    (rest : List Char) (words : List String) :
    scan (letters ++ rest) words = ofLetters letters ++ scan rest words := by
  induction letters with
  | nil => rfl
  | cons letter letters ih =>
    have hrest := ih fun l hl => hletters l (List.mem_cons_of_mem _ hl)
    rw [List.cons_append, scan_letter (hletters letter (List.mem_cons_self ..)), hrest]
    simp [ofLetters]

/-- Letters without values as a group of their own. -/
lemma scan_groupWords {letters : List Char} (hletters : ∀ letter ∈ letters, isPlain letter)
    (words : List String) :
    scan [] (groupWords letters ++ words) = ofLetters letters ++ scan [] words := by
  cases letters with
  | nil => rfl
  | cons letter letters =>
    have hletter : letter ≠ '-' := by
      have := hletters letter (List.mem_cons_self ..)
      simp [isPlain] at this
      exact this.1
    have hword : groupWords (letter :: letters) ++ words
        = String.ofList ('-' :: letter :: letters) :: words := rfl
    have hscan := scan_letters hletters [] words
    rw [List.append_nil] at hscan
    rw [hword, scan_group (String.toList_ofList ..) hletter, hscan]

end

/-! ## The tokens with another seed -/

/-- A seed in two words. -/
def ofSeed (seed : String) : CommandToken := flag (some .seed) "--seed" (.nextWord seed)

/-- The token with another seed, if it is a seed with a value. -/
def reseed (seed : String) : CommandToken → CommandToken
  | flag known written value =>
    if known = some .seed ∧ value ≠ .missing then ofSeed seed else flag known written value
  | operand text => operand text

section

variable {known : Option Flag} {value : FlagValue} {letter : Char}

lemma scan_seed (seed : String) (words : List String) :
    scan [] ("--seed" :: seed :: words) = ofSeed seed :: scan [] words :=
  @scan_next "--seed" seed words 's' ['e', 'e', 'd'] rfl (by decide) (by decide)

lemma reseed_operand (seed text : String) : reseed seed (operand text) = operand text := rfl

lemma reseed_missing (seed written : String) :
    reseed seed (flag known written .missing) = flag known written .missing :=
  if_neg fun h => h.2 rfl

lemma reseed_given (hvalue : value ≠ .missing) (seed written : String) :
    reseed seed (flag known written value)
      = if known = some .seed then ofSeed seed else flag known written value := by
  simp [reseed, hvalue]

lemma map_reseed_operand (seed : String) (texts : List String) :
    (texts.map operand).map (reseed seed) = texts.map operand := by
  rw [List.map_map]
  rfl

lemma map_reseed_ofLetters (seed : String) (letters : List Char) :
    (ofLetters letters).map (reseed seed) = ofLetters letters := by
  have hbare : (fun letter => ((lettersOf letter).map bare).map (reseed seed))
      = fun letter => (lettersOf letter).map bare := by
    funext letter
    rw [List.map_map]
    exact List.map_congr_left fun l _ => reseed_missing ..
  rw [ofLetters, List.map_flatMap, hbare]

/-- Two dashes do not begin a group. -/
lemma ne_dash_of_group {c : Char} {letters : List Char} (h₁ : c = '-' → letters = [] → False)
    (h₂ : ∀ (d : Char) (name : List Char), c = '-' → letters = d :: name → False) : c ≠ '-' := by
  intro hc
  cases letters with
  | nil => exact h₁ hc rfl
  | cons d name => exact h₂ d name hc rfl

lemma isPlain_of_mem {letters : List Char} :
    ∀ letter ∈ letters.takeWhile isPlain, isPlain letter := fun _ h => List.mem_takeWhile_imp h

/-- A group begins with its letters without values. -/
lemma scan_group_letters {word : String} {c : Char} {letters rest : List Char}
    (hword : word.toList = '-' :: c :: letters) (hc : c ≠ '-')
    (hrest : (c :: letters).dropWhile isPlain = rest) (words : List String) :
    scan [] (word :: words)
      = ofLetters ((c :: letters).takeWhile isPlain) ++ scan rest words := by
  rw [scan_group hword hc, ← hrest, ← scan_letters isPlain_of_mem, List.takeWhile_append_dropWhile]

/-- What comes after the letters without values is a dash or takes a value. -/
lemma letterTakesValue_of_dropWhile {letters rest : List Char}
    (hrest : letters.dropWhile isPlain = letter :: rest) (hletter : letter ≠ '-') :
    letterTakesValue letter = true := by
  have hhead := List.head?_dropWhile_not isPlain letters
  rw [hrest] at hhead
  simpa [isPlain, hletter] using hhead

/-- The letters without values of a group, and then a seed in two words. -/
lemma scan_groupWords_seed (seed : String) (letters : List Char) (words : List String) :
    scan [] ((groupWords (letters.takeWhile isPlain) ++ ["--seed", seed]) ++ words)
      = ofLetters (letters.takeWhile isPlain) ++ ofSeed seed :: scan [] words := by
  rw [List.append_assoc, scan_groupWords isPlain_of_mem]
  congr 1
  exact scan_seed seed words

/-- The words of a flag with a value are exchanged for those of another seed, if it is a seed. -/
lemma scan_reseed {plain : List Char} {seeded taken words words' : List String}
    {written seed : String} (hvalue : value ≠ .missing)
    (hscan : ∀ ws, scan [] (taken ++ ws) = ofLetters plain ++ flag known written value :: scan [] ws)
    (hseeded : ∀ ws, scan [] (seeded ++ ws) = ofLetters plain ++ ofSeed seed :: scan [] ws)
    (ih : scan [] words' = (scan [] words).map (reseed seed)) :
    scan [] ((if known = some .seed then seeded else taken) ++ words')
      = (scan [] (taken ++ words)).map (reseed seed) := by
  rw [hscan, List.map_append, map_reseed_ofLetters, List.map_cons, reseed_given hvalue, ← ih]
  split
  · exact hseeded _
  · exact hscan _

end

/-- The tokens of a command line with `seed` for every seed. -/
theorem ofWords_reseed (seed : String) (words : List String) :
    ofWords (reseedWords seed words) = (ofWords words).map (reseed seed) := by
  simp only [ofWords]
  -- the cases are those of the words: long names first, then groups of letters, then operands
  fun_induction EndlessRemix.reseedWords seed words
  case case1 => rw [scan.eq_def]; rfl
  case case2 word words hword => rw [scan_end hword, map_reseed_operand]
  case case3 word words c name hword hname ih =>
    have hscan (ws : List String) : scan [] ([word] ++ ws)
        = ofLetters [] ++ cutAtEquals word.toList :: scan [] ws := scan_attached hword hname
    simp only [isFlag, cutAtEquals, decide_eq_true_eq]
    exact scan_reseed (by simp) hscan (scan_seed seed) ih
  case case4 word c name hword hname known hvalue =>
    rw [scan_missing hword hname hvalue, List.map_singleton, reseed_missing]
  case case5 word c name hword hname known hvalue next words ih =>
    have hscan (ws : List String) : scan [] ([word, next] ++ ws)
        = ofLetters [] ++ flag known word (.nextWord next) :: scan [] ws :=
      scan_next hword hname hvalue
    exact scan_reseed (by simp) hscan (scan_seed seed) ih
  case case6 word words c name hword hname known hvalue ih =>
    rw [scan_alone hword hname hvalue, scan_alone hword hname hvalue, List.map_cons,
      reseed_missing, ih]
  case case7 word words c letters h₁ h₂ hword hrest ih =>
    have hc := ne_dash_of_group h₁ h₂
    rw [scan_group_letters hword hc hrest, scan_group_letters hword hc hrest, List.map_append,
      map_reseed_ofLetters, ih]
  case case8 word words c letters h₁ h₂ hword tail hrest =>
    have hscan : scan [] (word :: words)
        = ofLetters ((c :: letters).takeWhile isPlain) ++ (ungroup tail ++ words).map operand := by
      rw [scan_group_letters hword (ne_dash_of_group h₁ h₂) hrest, scan_dash]
    rw [hscan, List.map_append (f := reseed seed), map_reseed_ofLetters, map_reseed_operand]
  case case9 word c letters h₁ h₂ hword letter hletter hrest =>
    have hvalue := letterTakesValue_of_dropWhile hrest hletter
    rw [scan_group_letters hword (ne_dash_of_group h₁ h₂) hrest,
      scan_letter_missing hletter hvalue, List.map_append, map_reseed_ofLetters,
      List.map_singleton, bare, reseed_missing]
  case case10 word c letters h₁ h₂ hword flags letter hletter hrest next words ih =>
    have hvalue := letterTakesValue_of_dropWhile hrest hletter
    have hscan (ws : List String) : scan [] ([word, next] ++ ws)
        = ofLetters ((c :: letters).takeWhile isPlain)
          ++ withValue letter (.nextWord next) :: scan [] ws := by
      rw [List.cons_append, scan_group_letters hword (ne_dash_of_group h₁ h₂) hrest,
        List.singleton_append, scan_letter_next hletter hvalue]
    exact scan_reseed (by simp) hscan (scan_groupWords_seed seed _) ih
  case case11 word words c letters h₁ h₂ hword flags letter tail hletter htail hrest ih =>
    have hvalue := letterTakesValue_of_dropWhile hrest hletter
    have hscan (ws : List String) : scan [] ([word] ++ ws)
        = ofLetters ((c :: letters).takeWhile isPlain)
          ++ withValue letter (.attached (String.ofList tail)) :: scan [] ws := by
      rw [List.singleton_append, scan_group_letters hword (ne_dash_of_group h₁ h₂) hrest]
      cases tail with
      | nil => exact absurd rfl htail
      | cons d tail => rw [scan_letter_attached hletter hvalue]
    exact scan_reseed (by simp) hscan (scan_groupWords_seed seed _) ih
  case case12 word words h₁ h₂ hword ih =>
    rw [scan_operand hword, scan_operand hword, List.map_cons, reseed_operand, ih]

end CommandToken

end EndlessRemix
