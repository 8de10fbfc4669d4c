import BoundedFormat.Console.Printer

/-!
# Devices behind a console

A device takes the events of a console as calls of its own. A write of no bytes makes no call; a
device that takes only some bytes at a time is called until it has all of them. A device that
fails is not asked again for the same bytes, and nobody hears of it.
-/

namespace BoundedFormat.Console

/-- How a device takes bytes. -/
inductive Device
  /-- All at once. -/
  | whole
  /-- At most so many at a time, but at least one. -/
  | limited (most : Nat)
  /-- Never. -/
  | failing
deriving DecidableEq, Repr

/-- What a device sees. -/
inductive Call
  | took (text : Bytes)
  | failed
  | flush
  | key
deriving DecidableEq, Repr

/-- Cuts a text into pieces of `size + 1` bytes, the last of which may be shorter. -/
def piecesOf (size : Nat) (text : Bytes) : List Bytes :=
  match text with
  | [] => []
  | b :: rest => (b :: rest.take size) :: piecesOf size (rest.drop size)
termination_by text.length
decreasing_by simp only [List.length_drop, List.length_cons]; omega

namespace Device

/-- The calls that write a text. -/
def write (device : Device) (text : Bytes) : List Call :=
  if text.isEmpty then []
  else
    match device with
    | .whole => [.took text]
    | .limited most => (piecesOf (most - 1) text).map .took
    | .failing => [.failed]

/-- The calls that an event makes. -/
def calls (device : Device) : Event → List Call
  | .write text => device.write text
  | .refresh => [.flush]
  | .key => [.key]

end Device
end BoundedFormat.Console
