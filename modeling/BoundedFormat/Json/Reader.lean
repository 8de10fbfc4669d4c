import BoundedFormat.Json.Token

/-!
# Reading JSON

`Json.parse?` reads a text that holds one value. The reader takes token after token; its state is
the stack of containers still open and what may come next. Containers nest up to 127 deep.
-/

namespace BoundedFormat.Json

/-- A container that is open around the value being read. -/
inductive Frame
  /-- An array, with the items before the value, the last of them first. -/
  | array (items : List Json)
  /-- An object, with the members before the value and the key that the value is for. -/
  | object (members : List (String × Json)) (key : String)

/-- What may come next. -/
inductive Phase
  /-- A value. -/
  | value
  /-- The first item of an array, or its end. -/
  | item
  /-- The first key of an object, or its end. -/
  | member
  /-- A further key of an object that has these members. -/
  | key (members : List (String × Json))
  /-- The colon behind a key. -/
  | colon (members : List (String × Json)) (key : String)
  /-- What follows a value that has been read whole. -/
  | after (value : Json)

/-- The state of the reader, the innermost open container first. -/
structure ReadState where
  stack : List Frame
  phase : Phase

/-- How deep containers may nest. -/
def maxDepth : Nat := 127

namespace ReadState

/-- Nothing has been read. -/
def initial : ReadState := { stack := [], phase := .value }

/-- A token where a value is due. -/
def beginValue (stack : List Frame) : Token → Option ReadState
  | .openArray =>
    if stack.length < maxDepth then some { stack := .array [] :: stack, phase := .item } else none
  | .openObject =>
    if stack.length < maxDepth then some { stack, phase := .member } else none
  | .null => some { stack, phase := .after .null }
  | .bool value => some { stack, phase := .after (.bool value) }
  | .number value => some { stack, phase := .after (.number value) }
  | .string text => some { stack, phase := .after (.string text) }
  | _ => none

/-- A token behind a whole value. -/
def afterValue (stack : List Frame) (value : Json) (token : Token) : Option ReadState :=
  match token, stack with
  | .comma, .array items :: outer =>
    some { stack := .array (value :: items) :: outer, phase := .value }
  | .closeArray, .array items :: outer =>
    some { stack := outer, phase := .after (.array (value :: items).reverse) }
  | .comma, .object members key :: outer =>
    some { stack := outer, phase := .key (insertMember key value members) }
  | .closeObject, .object members key :: outer =>
    some { stack := outer, phase := .after (.object (insertMember key value members)) }
  | _, _ => none

/-- One token. -/
def step (state : ReadState) (token : Token) : Option ReadState :=
  match state.phase, token with
  | .value, token => beginValue state.stack token
  | .item, .closeArray => some { stack := state.stack.tail, phase := .after (.array []) }
  | .item, token => beginValue state.stack token
  | .member, .closeObject => some { state with phase := .after (.object []) }
  | .member, .string key => some { state with phase := .colon [] key }
  | .key members, .string key => some { state with phase := .colon members key }
  | .colon members key, .colon =>
    some { stack := .object members key :: state.stack, phase := .value }
  | .after value, token => afterValue state.stack value token
  | _, _ => none

/-- The value read, if it is whole and nothing is open. -/
def result? (state : ReadState) : Option Json :=
  match state.stack, state.phase with
  | [], .after value => some value
  | _, _ => none

/-- Reads the rest of a text. -/
def run (state : ReadState) : List Char → Option Json
  | [] => state.result?
  | c :: rest =>
    if isBlank c then run state rest
    else
      match _h : Token.read? (c :: rest) with
      | none => none
      | some (token, tail) =>
        match state.step token with
        | none => none
        | some state => run state tail
termination_by s => s.length
decreasing_by
  · exact Nat.lt_succ_self _
  · exact Token.length_of_read? _h

end ReadState

/-- The value that a text holds. -/
def parse? (s : String) : Option Json := ReadState.initial.run s.toList

end BoundedFormat.Json
