import BoundedFormat.Bytes

/-!
# Memory that may be refused

Every allocation asks a `Heap` first. Behind a heap stands an allocator, which never gives more than
half the address space at once and may give less, as it likes. In front of it there may be a budget.
A budget is charged for every request that is granted and never gets anything back; a request over
what remains is refused and counted, and changes nothing else.
-/

namespace BoundedFormat

/-- The largest size of one allocation: half the address space. -/
def maxAllocation : Nat := 0x7fffffffffffffff

/-- A fixed amount of memory: what remains, and how many requests exceeded it. The count has the
size of a machine length; it would take more refusals than that to bring it past its end. -/
structure Budget where
  remaining : Nat
  failures : Nat := 0
deriving DecidableEq, Repr

/-- The size of an array in bytes, as a word shows it. -/
def arrayBytes (count elementBytes : Nat) : Nat := saturate (count * elementBytes)

/-- The array that is to have room for more elements: how many it has, and for how many there is
room already. A new array has none and no room. -/
structure Growing where
  length : Nat := 0
  capacity : Nat := 0
deriving DecidableEq, Repr

namespace Growing

/-- True if an array may become so large: its elements can be counted and fit one allocation. -/
def fits (array : Growing) (count elementBytes : Nat) : Bool :=
  array.length + count ≤ maxLength && (array.length + count) * elementBytes ≤ maxAllocation

/-- True if so many more elements need no new memory. Elements without a size never do. -/
def hasRoom (array : Growing) (count elementBytes : Nat) : Bool :=
  elementBytes == 0 || array.length + count ≤ array.capacity

end Growing

/-- What has the memory. -/
inductive Allocator
  /-- An allocator that never runs out. -/
  | ample
  /-- An allocator given by its answers, the next one first. It refuses behind the last. -/
  | answering (answers : List Bool)
deriving DecidableEq, Repr

namespace Allocator

/-- The answer to a request that comes as far as the allocator. -/
def answer : Allocator → Bool × Allocator
  | .ample => (true, .ample)
  | .answering answers => (answers.headD false, .answering answers.tail)

/-- Makes room for more elements of an array. Only an array that may become so large, and has not
the room yet, needs the allocator. -/
def grow (allocator : Allocator) (array : Growing) (count elementBytes : Nat) : Bool × Allocator :=
  if !array.fits count elementBytes then (false, allocator)
  else if array.hasRoom count elementBytes then (true, allocator)
  else allocator.answer

end Allocator

/-- Where memory comes from: an allocator, and perhaps a budget in front of it. -/
structure Heap where
  allocator : Allocator := .ample
  budget? : Option Budget := none
deriving DecidableEq, Repr

namespace Heap

/-- The heap that refuses only what no address space can hold. -/
@[match_pattern]
def system : Heap := { allocator := .ample, budget? := none }

/-- The heap that refuses what its budget cannot pay. -/
@[match_pattern]
def budget (state : Budget) : Heap := { allocator := .ample, budget? := some state }

/-- The heap that gives these answers, one after the other. -/
def answering (answers : List Bool) : Heap := { allocator := .answering answers, budget? := none }

/-- Asks for room for `count` more elements in an array. A request that the budget could pay, but
that is refused behind it, is not counted. -/
def request (heap : Heap) (count elementBytes : Nat) (array : Growing := {}) : Bool × Heap :=
  let size := arrayBytes count elementBytes
  match heap.budget? with
  | none =>
    let (granted, allocator) := heap.allocator.grow array count elementBytes
    (granted, { heap with allocator })
  | some state =>
    if state.remaining < size then
      (false, { heap with budget? := some { state with failures := state.failures + 1 } })
    else
      match heap.allocator.grow array count elementBytes with
      | (true, allocator) =>
        (true, { allocator, budget? := some { state with remaining := state.remaining - size } })
      | (false, allocator) => (false, { allocator, budget? := some state })

/-- Asks for a buffer of zero bytes. -/
def allocate (heap : Heap) (length : Nat) : Option Bytes × Heap :=
  match heap.request length 1 with
  | (true, heap) => (some (List.replicate length 0), heap)
  | (false, heap) => (none, heap)

end Heap
end BoundedFormat
