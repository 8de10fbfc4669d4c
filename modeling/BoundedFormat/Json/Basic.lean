/-!
# JSON values

A number is an integer of 64 bits, signed or unsigned, or a float given by its bits. The members
of an object are kept in a list; `insertMember` keeps such a list in the order of its keys, each
key once, which is how objects are read.
-/

namespace BoundedFormat

/-- A JSON number. -/
inductive Json.Number
  | integer (value : Int)
  | float (bits : UInt64)
deriving DecidableEq, Repr

/-- A JSON value. -/
inductive Json
  | null
  | bool (value : Bool)
  | number (value : Json.Number)
  | string (text : String)
  | array (items : List Json)
  | object (members : List (String × Json))

namespace Json

/-- Puts a member into a list in the order of its keys. An older member with the same key is
replaced. Keys are ordered by code points, which is also the order of their bytes. -/
def insertMember (key : String) (value : Json) : List (String × Json) → List (String × Json)
  | [] => [(key, value)]
  | (k, v) :: rest =>
    if key < k then (key, value) :: (k, v) :: rest
    else if key = k then (key, value) :: rest
    else (k, v) :: insertMember key value rest

/-- The member of an object with a key. -/
def get? (key : String) : Json → Option Json
  | .object members => members.lookup key
  | _ => none

/-- The text of a string value. -/
def text? : Json → Option String
  | .string text => some text
  | _ => none

/-- The value of an unsigned integer of 64 bits. -/
def natural? : Json → Option Nat
  | .number (.integer value) => value.toNat?
  | _ => none

end Json
end BoundedFormat
