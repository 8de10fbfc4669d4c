import BoundedFormat.Numeral.Reader

/-!
# The pending error

An `ErrorState` holds the most recent failure that nobody has taken yet, and a stack of up to
sixteen saved ones. A caller saves the pending error before work whose failures must not show,
and restores it afterwards.
-/

namespace BoundedFormat

/-- What can go wrong. -/
inductive Error
  /-- A number does not fit where it has to go. -/
  | outOfRange
  /-- No digits stand where a number was expected. -/
  | badNumber
  /-- Memory was refused. -/
  | outOfMemory
deriving DecidableEq, Repr

/-- The wording of an error. -/
def Error.message : Error → String
  | .outOfRange => "overflow is detected"
  | .badNumber => "unrecognized number"
  | .outOfMemory => "out of memory"

/-- The error that the end of a reading stands for. -/
def Numeral.Status.error? : Numeral.Status → Option Error
  | .success => none
  | .overflow => some .outOfRange
  | .badNumber => some .badNumber

/-- The pending error and the saved ones, the last saved first. -/
structure ErrorState where
  pending : Option Error := none
  saved : List (Option Error) := []
deriving DecidableEq, Repr

namespace ErrorState

/-- How many errors can be saved. -/
def maxDepth : Nat := 16

/-- The number of saved errors. -/
def depth (state : ErrorState) : Nat := state.saved.length

/-- Makes an error the pending one. -/
def set (state : ErrorState) (error : Error) : ErrorState := { state with pending := some error }

/-- Forgets the pending error. -/
def clear (state : ErrorState) : ErrorState := { state with pending := none }

/-- Takes the pending error away. -/
def take (state : ErrorState) : Option Error × ErrorState := (state.pending, state.clear)

/-- Saves the pending error and clears it. A full stack saves nothing, but the pending error is
cleared all the same. -/
def push (state : ErrorState) : Bool × ErrorState :=
  if state.depth < maxDepth then (true, { pending := none, saved := state.pending :: state.saved })
  else (false, state.clear)

/-- Makes the error saved last pending again. With none saved, the pending error is cleared. -/
def pop (state : ErrorState) : Bool × ErrorState :=
  match state.saved with
  | [] => (false, state.clear)
  | error :: rest => (true, { pending := error, saved := rest })

end ErrorState
end BoundedFormat
