import BoundedFormat.ArgumentText
import BoundedFormat.CommandLine.Grammar
import BoundedFormat.Run

/-!
# Commands

There are three commands: `format` formats arguments and logs the run, `divmod` divides, `parse`
reads a number. `Command.ofWords` reads a command from the words of the command line.
-/

namespace BoundedFormat

/-- A command. -/
inductive Command
  | format (template : String) (capacity : Option Nat) (log : Option String)
      (arguments : List Argument)
  | divmod (dividend divisor : Word)
  | read (text : String) (base : Nat)

namespace Command

/-! ### Values -/

/-- The value of a string of digits, if there are any and it is not above `most`. -/
def digits? (most : Nat) (digits : List Char) : Option Nat :=
  if digits.isEmpty || !digits.all Char.isDigit then none
  else
    let value := Nat.ofDigitChars 10 digits 0
    if value ≤ most then some value else none

/-- The value of an unsigned number, which may have a plus sign. -/
def natural? (most : Nat) (text : String) : Option Nat :=
  match text.toList with
  | '+' :: rest => digits? most rest
  | all => digits? most all

/-- The value of a number that fills a word or the length of a buffer. -/
def length? (text : String) : Option Nat := natural? maxLength text

/-- The largest base that can be asked for. -/
def maxBase : Nat := 0xffffffff

/-- The value of a base, an unsigned number that may be written as minus zero. -/
def base? (text : String) : Option Nat :=
  match text.toList with
  | '-' :: rest => digits? 0 rest
  | _ => natural? maxBase text

/-- A path, which is not empty. -/
def path? (text : String) : Option String := if text.isEmpty then none else some text

/-- An argument of `format`. -/
def argument? (text : String) : Option Argument := (ArgumentText.parse text).toOption

/-! ### Grammars -/

/-- What `format` takes. -/
def formatGrammar : Grammar where
  options :=
    [("format", fun _ => true), ("capacity", fun text => (length? text).isSome),
      ("log", fun text => (path? text).isSome)]
  isValue text := (argument? text).isSome
  maxValues := none
  hyphenValues := true

/-- What `divmod` takes. -/
def divmodGrammar : Grammar where
  isValue text := (length? text).isSome
  maxValues := some 2

/-- What `parse` takes. -/
def parseGrammar : Grammar where
  options := [("base", fun text => (base? text).isSome)]
  isValue _ := true
  maxValues := some 1

/-- What stands in front of the name of a command: nothing, but help may be asked for. -/
def programGrammar : Grammar where
  isValue _ := false
  maxValues := some 0

/-! ### Reading -/

/-- The command `format` with these words. -/
def ofFormatWords (words : SortedWords) : Option Command := do
  let template ← words.option? "format" some
  let arguments ← words.values.mapM argument?
  return .format template (words.option? "capacity" length?) (words.option? "log" path?) arguments

/-- The command `divmod` with these words. -/
def ofDivmodWords (words : SortedWords) : Option Command :=
  match words.values.mapM length? with
  | some [dividend, divisor] =>
    some (.divmod (BitVec.ofNat 64 dividend) (BitVec.ofNat 64 divisor))
  | _ => none

/-- The command `parse` with these words. -/
def ofParseWords (words : SortedWords) : Option Command :=
  match words.values with
  | [text] => some (.read text ((words.option? "base" base?).getD 0))
  | _ => none

/-- Sorts words by a grammar and reads a command from them. -/
def ofSorted (g : Grammar) (read : SortedWords → Option Command) (words : List String) :
    Except Refusal Command :=
  match g.sort none {} words with
  | .error refusal => .error refusal
  | .ok sorted =>
    match read sorted with
    | none => .error .usage
    | some command => .ok command

/-- What can be asked about behind the word `help`, one at a time. -/
def helpTopics : List String := ["format", "divmod", "parse", "help"]

/-- What the words behind `help` lead to. -/
def helpRefusal : List String → Refusal
  | [] => .help
  | [topic] => if helpTopics.contains topic then .help else .usage
  | _ => .usage

/-- The command of the words behind the name of the program. -/
def ofWords : List String → Except Refusal Command
  | "format" :: rest => ofSorted formatGrammar ofFormatWords rest
  | "divmod" :: rest => ofSorted divmodGrammar ofDivmodWords rest
  | "parse" :: rest => ofSorted parseGrammar ofParseWords rest
  | "help" :: topics => .error (helpRefusal topics)
  | word :: _ => .error (if programGrammar.kind word = .help then .help else .usage)
  | [] => .error .usage

end Command

end BoundedFormat
