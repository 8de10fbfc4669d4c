import BoundedFormat.Argument
import BoundedFormat.Directive.Parser
import BoundedFormat.Heap

/-!
# The slots of one formatting run

Before a value can be read, the format is scanned for the number of its slots and the type of
each one; a position may name a slot ahead of its turn. Up to 32 slots are at hand. A longer list
asks the heap, and keeps the 32 if it is refused, so that the directives past them find nothing.
-/

namespace BoundedFormat

/-- Where the slots of a list are. -/
inductive Placement
  /-- In the slots at hand. -/
  | inline
  /-- In storage that the heap granted. -/
  | spilled
  /-- In the slots at hand, because the heap refused. -/
  | truncated
deriving DecidableEq, Repr

/-- The slots of one formatting run. -/
structure ArgumentList where
  /-- All slots in use or not. -/
  storage : List Slot
  /-- How many slots, from the first, are in use. -/
  size : Nat
  placement : Placement
deriving DecidableEq, Repr

/-- The size of a slot in the heap. -/
def Dialect.slotBytes : Dialect → Nat
  | .plain => 32
  | .firmware => 40

/-- The slots that the directives in some pieces of a format name, with the type that each one asks
for. The cursor is the number of directives before them that ask for a type; each of these moves it
on, also if its position names another slot or none. -/
def slotUsesFrom (cursor : Nat) : List Piece → List (Nat × SlotType)
  | [] => []
  | .literal _ :: rest | .incomplete _ :: rest => slotUsesFrom cursor rest
  | .directive spec _ :: rest =>
    match spec.slotType? with
    | none => slotUsesFrom cursor rest
    | some type =>
      match spec.slotIndex? cursor with
      | none => slotUsesFrom (cursor + 1) rest
      | some index => (index, type) :: slotUsesFrom (cursor + 1) rest

/-- The slots that the directives of a format name, with the type that each one asks for. -/
def slotUses (dialect : Dialect) (format : Bytes) : List (Nat × SlotType) :=
  slotUsesFrom 0 (pieces dialect format)

namespace ArgumentList

/-- How many slots are at hand without asking the heap. -/
def inlineSlots : Nat := 32

/-- A list of `count` untyped slots. -/
def withCount (dialect : Dialect) (count : Nat) (heap : Heap) : ArgumentList × Heap :=
  if count ≤ inlineSlots then
    ({ storage := List.replicate inlineSlots {}, size := count, placement := .inline }, heap)
  else
    match heap.request count dialect.slotBytes with
    | (true, heap) =>
      ({ storage := List.replicate count {}, size := count, placement := .spilled }, heap)
    | (false, heap) =>
      ({ storage := List.replicate inlineSlots {}, size := inlineSlots, placement := .truncated },
       heap)

/-- Gives a slot in use its type. -/
def setType (list : ArgumentList) (use : Nat × SlotType) : ArgumentList :=
  if use.1 < list.size then
    { list with storage := list.storage.modify use.1 fun slot => { slot with type := use.2 } }
  else list

/-- Types every slot in use that a directive reads. The last directive to name a slot decides. -/
def assignTypes (dialect : Dialect) (format : Bytes) (list : ArgumentList) : ArgumentList :=
  (slotUses dialect format).foldl setType list

/-- Loads one argument into each slot, in order. Fewer arguments than slots shorten the list;
further arguments are ignored. -/
def extract (arguments : List Argument) (list : ArgumentList) : ArgumentList :=
  let size := min list.size arguments.length
  { list with
    storage := List.zipWith Slot.load (list.storage.take size) arguments ++ list.storage.drop size
    size }

/-- The typed but unloaded slots of a format. -/
def scan (dialect : Dialect) (format : Bytes) (heap : Heap) : ArgumentList × Heap :=
  let (list, heap) := withCount dialect (countArguments dialect format) heap
  (list.assignTypes dialect format, heap)

/-- The slots of a format, loaded with the arguments of a call. -/
def collect (dialect : Dialect) (format : Bytes) (arguments : List Argument) (heap : Heap) :
    ArgumentList × Heap :=
  let (list, heap) := scan dialect format heap
  (list.extract arguments, heap)

/-- The slot with an index, if it is in use. -/
def get? (list : ArgumentList) (index : Nat) : Option Slot :=
  if index < list.size then list.storage[index]? else none

/-- The slots in use. -/
def toList (list : ArgumentList) : List Slot := list.storage.take list.size

/-- True if no slot is in use. -/
def isEmpty (list : ArgumentList) : Bool := list.size == 0

/-- True if the slots are in storage of the heap. -/
def isSpilled (list : ArgumentList) : Bool := list.placement == .spilled

/-- True if the heap refused a long list and slots were dropped. -/
def isTruncated (list : ArgumentList) : Bool := list.placement == .truncated

theorem get?_eq_toList (list : ArgumentList) (index : Nat) :
    list.get? index = list.toList[index]? := by
  unfold get? toList
  split
  · next h => rw [List.getElem?_take_of_lt h]
  · next h => rw [List.getElem?_take_eq_none (Nat.le_of_not_lt h)]

end ArgumentList
end BoundedFormat
