/-!
# The words of a command

A command takes options, each with a value, and further values. `Grammar.sort` sorts the words
behind the name of a command from left to right and tests each value as soon as it is complete, so
that a request for help counts only if nothing before it is wrong.
-/

namespace BoundedFormat

/-- What a command takes. -/
structure Grammar where
  /-- The options, each with the test that its value must pass. -/
  options : List (String × (String → Bool)) := []
  /-- The test that each further value must pass. -/
  isValue : String → Bool
  /-- The most further values there may be. -/
  maxValues : Option Nat
  /-- True if values may begin with a hyphen. From the first one on all words are values then. -/
  hyphenValues : Bool := false

/-- The words of a command, sorted into options and values. -/
structure SortedWords where
  options : List (String × String) := []
  values : List String := []

/-- How a word on the command line is understood. -/
inductive WordKind
  /-- An option whose value is the next word. -/
  | option (name : String)
  /-- An option with its value. -/
  | assignment (name value : String)
  | value
  | help
  | unknown
deriving DecidableEq, Repr

/-- Why words are not a command. -/
inductive Refusal
  | usage
  | help
deriving DecidableEq, Repr

/-- The value of an option, if it is given and can be read. -/
def SortedWords.option? {α : Type} (words : SortedWords) (name : String)
    (read : String → Option α) : Option α :=
  (words.options.lookup name).bind read

namespace Grammar

/-- The kind of a word that begins with two hyphens, given without them. -/
def longKind (g : Grammar) (word : List Char) : WordKind :=
  let (name, attached) := word.span (· ≠ '=')
  let name := String.ofList name
  if (g.options.lookup name).isSome then
    match attached with
    | [] => .option name
    | _ :: value => .assignment name (String.ofList value)
  else if name = "help" then if attached.isEmpty then .help else .unknown
  else if g.hyphenValues then .value
  else .unknown

/-- The kind of a word that begins with one hyphen, given without it. The only letter that means
something is `h`. -/
def shortKind (g : Grammar) (letters : List Char) : WordKind :=
  if g.hyphenValues && letters.any (· ≠ 'h') then .value
  else if letters.head? = some 'h' then .help
  else .unknown

/-- The kind of a word other than `--`. -/
def kind (g : Grammar) (word : String) : WordKind :=
  match word.toList with
  | '-' :: '-' :: rest => g.longKind rest
  | ['-'] => .value
  | '-' :: letters => g.shortKind letters
  | _ => .value

/-- Adds an option, whose value must pass its test; none may be given twice. -/
def addOption (g : Grammar) (words : SortedWords) (name value : String) :
    Except Refusal SortedWords :=
  let accepted := ((g.options.lookup name).map (· value)).getD false
  if (words.options.lookup name).isSome || !accepted then .error .usage
  else .ok { words with options := words.options ++ [(name, value)] }

/-- True if there may be one more value. -/
def hasRoom (g : Grammar) (words : SortedWords) : Bool :=
  match g.maxValues with
  | none => true
  | some most => words.values.length < most

/-- Adds a value, which must pass the test and find room. -/
def addValue (g : Grammar) (words : SortedWords) (value : String) : Except Refusal SortedWords :=
  if g.hasRoom words && g.isValue value then
    .ok { words with values := words.values ++ [value] }
  else .error .usage

/-- Adds values. -/
def addValues (g : Grammar) (words : SortedWords) (values : List String) :
    Except Refusal SortedWords :=
  values.foldlM g.addValue words

/-- Sorts the words of a command; `awaiting` is the option whose value comes next. A word that
could be an option or ask for help is never its value. Behind `--` all words are values. -/
def sort (g : Grammar) (awaiting : Option String) (words : SortedWords) :
    List String → Except Refusal SortedWords
  | [] => if awaiting.isSome then .error .usage else .ok words
  | word :: rest =>
    if word = "--" then
      if awaiting.isSome then .error .usage else g.addValues words rest
    else
      match g.kind word, awaiting with
      | .unknown, _ | .help, some _ | .option _, some _ | .assignment .., some _ => .error .usage
      | .help, none => .error .help
      | .option name, none => g.sort (some name) words rest
      | .assignment name value, none =>
        match g.addOption words name value with
        | .error refusal => .error refusal
        | .ok words => g.sort none words rest
      | .value, some name =>
        match g.addOption words name word with
        | .error refusal => .error refusal
        | .ok words => g.sort none words rest
      | .value, none =>
        if g.hyphenValues then g.addValues words (word :: rest)
        else
          match g.addValue words word with
          | .error refusal => .error refusal
          | .ok words => g.sort none words rest

end Grammar

end BoundedFormat
