import BoundedFormat.WordSearch

/-!
# Settings and debug conditions

A setting is looked up by name, in a block of variables kept in memory or in the variables of the
process, where names carry a marker and are in upper case. The setting `debug` lists the
conditions whose messages are wanted. A condition with a minus sign in front is not wanted,
wherever it stands in the list and whatever else the list holds.
-/

namespace BoundedFormat

/-- A way to look up a setting. -/
abbrev Lookup := String → Option String

/-- Variables kept in memory, each name once. -/
abbrev Variables := List (String × String)

namespace Variables

/-- The value of a variable. -/
def get? (vars : Variables) (name : String) : Option String := vars.lookup name

/-- Takes a variable out. -/
def unset (vars : Variables) (name : String) : Variables := vars.filter (·.1 != name)

/-- Sets a variable, in place of an older value. -/
def set (vars : Variables) (name value : String) : Variables := (name, value) :: vars.unset name

theorem get?_set (vars : Variables) (name value : String) :
    (vars.set name value).get? name = some value := by
  simp [set, get?]

end Variables

namespace ProcessVariables

/-- What the name of a process variable begins with. -/
def marker : String := "BOOTFMT_"

/-- The process variable of a setting. -/
def variableName (name : String) : String := marker ++ name.map Char.toUpper

/-- The rest of `text` behind `start`, if it begins so. -/
def dropStart? : (start text : List Char) → Option (List Char)
  | [], text => some text
  | _ :: _, [] => none
  | c :: start, d :: text => if c = d then dropStart? start text else none

/-- Looks a name up in the variables of a process. They are held as lines `NAME=value`, so the
value is whatever follows the first line that begins with the name and an equals sign. A name with
a NUL cannot be asked for. -/
def get? (vars : Variables) (name : String) : Option String :=
  if name.toList.contains '\x00' then none
  else
    vars.findSome? fun (n, value) =>
      (dropStart? (name.toList ++ ['=']) (n.toList ++ '=' :: value.toList)).map String.ofList

/-- Looks a setting up in the variables of a process. -/
def lookup (vars : Variables) : Lookup := fun name => ProcessVariables.get? vars (variableName name)

end ProcessVariables

/-- The setting that lists the wanted conditions. -/
def debugSetting : String := "debug"

/-- The word that stands for every condition. -/
def allConditions : Bytes := textBytes "all"

/-- The word that takes a condition out. -/
def negated (condition : Bytes) : Bytes := ascii '-' :: condition

/-- Goes through a list of words; `enabled` tells whether one of those before asked for the
condition. -/
def conditionWanted (condition : Bytes) (enabled : Bool) : List Bytes → Bool
  | [] => enabled
  | word :: rest =>
    if word = allConditions ∨ word = condition then conditionWanted condition true rest
    else if word = negated condition then false
    else conditionWanted condition enabled rest

/-- True if messages about a condition are wanted. -/
def debugEnabled (lookup : Lookup) (condition : String) : Bool :=
  match lookup debugSetting with
  | none => false
  | some list => conditionWanted (textBytes condition) false (words (textBytes list))

end BoundedFormat
