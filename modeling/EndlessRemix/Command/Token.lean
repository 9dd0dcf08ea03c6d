import EndlessRemix.Command.Flag

/-!
# Words of the command line

A word that starts with a dash is a flag, or several letters in a group; any other is an operand. A
letter that takes a value ends its group: the value is the rest of the group or, at its end, the
next word. A long name takes its value after an equals sign or from the next word. After two dashes
by themselves all words are operands, and a dash inside a group is such a pair.
-/

namespace EndlessRemix

/-- What a flag's value was taken from. -/
inductive FlagValue where
  | missing
  /-- The value stands in the word of the flag. -/
  | attached (text : String)
  /-- The value is the word after the flag. -/
  | nextWord (text : String)
  deriving Repr, DecidableEq

/-- A piece of the command line: an operand, or a flag as it was written, if it is known. -/
inductive CommandToken where
  | operand (text : String)
  | flag (known : Option Flag) (written : String) (value : FlagValue)
  deriving Repr, DecidableEq

namespace CommandToken

/-- The letter takes a value. -/
def letterTakesValue (letter : Char) : Bool := (Flag.ofLetter? letter).any Flag.takesValue

/-- A letter as a word of its own. -/
def letterWord (letter : Char) : String := String.ofList ['-', letter]

/-- The letters that a character of a group stands for. Letters are units of 16 bits, so a character
that takes two of them falls apart into halves, which are no characters. -/
def lettersOf (c : Char) : List Char :=
  if c.toNat < 0x10000 then [c] else ['\uFFFD', '\uFFFD']

/-- The words that the letters of a group stand for. -/
def ungroup : List Char → List String
  | [] => []
  | letter :: rest =>
    if letterTakesValue letter then [String.ofList ('-' :: letter :: rest)]
    else (lettersOf letter).map letterWord ++ ungroup rest

/-- A letter without a value. -/
def bare (letter : Char) : CommandToken := flag (Flag.ofLetter? letter) (letterWord letter) .missing

/-- A letter with a value. -/
def withValue (letter : Char) (value : FlagValue) : CommandToken :=
  flag (Flag.ofLetter? letter) (letterWord letter) value

/-- A long name that is cut at its first equals sign. -/
def cutAtEquals (word : List Char) : CommandToken :=
  let before := word.takeWhile (· ≠ '=')
  let name := before.drop 2
  flag (Flag.ofName? (String.ofList name)) (String.ofList ('-' :: '-' :: name))
    (.attached (String.ofList (word.drop (before.length + 1))))

/-- The tokens of the words, after the letters of a group that is under way. -/
def scan : List Char → List String → List CommandToken
  | [], [] => []
  | letter :: rest, words =>
    -- a dash in the place of a letter stands for the two dashes that end all flags
    if letter = '-' then (ungroup rest ++ words).map operand
    else if letterTakesValue letter then
      match rest, words with
      | [], [] => [bare letter]
      | [], next :: words => withValue letter (.nextWord next) :: scan [] words
      | rest, words => withValue letter (.attached (String.ofList rest)) :: scan [] words
    else (lettersOf letter).map bare ++ scan rest words
  | [], word :: words =>
    match word.toList with
    | ['-', '-'] => words.map operand
    | '-' :: '-' :: c :: name =>
      if '=' ∈ name then cutAtEquals word.toList :: scan [] words
      else
        let known := Flag.ofName? (String.ofList (c :: name))
        if known.any Flag.takesValue then
          match words with
          | [] => [flag known word .missing]
          | next :: words => flag known word (.nextWord next) :: scan [] words
        else flag known word .missing :: scan [] words
    | '-' :: c :: letters => scan (c :: letters) words
    -- a dash by itself is an operand, and so is the empty word
    | _ => operand word :: scan [] words
termination_by group words => (words.length, group.length)

/-- The tokens of a command line. -/
def ofWords (words : List String) : List CommandToken := scan [] words

end CommandToken

end EndlessRemix
