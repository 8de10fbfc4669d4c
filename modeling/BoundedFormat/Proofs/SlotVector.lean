import BoundedFormat.Proofs.Agreement
import BoundedFormat.Proofs.Slots

/-!
# A list of slots is a vector

The slots of a list are at hand or in the heap, and some of them are not in use. Typing, loading,
looking up and rendering never tell: `SlotVector` does all of it to the slots in use alone.
`performAll_spec` follows a list through any operations, in any order and with any formats, and
compares it with the vector at every step.
-/

namespace BoundedFormat
namespace ArgumentList

/-! ## Operations on a list -/

/-- What a list is made for. -/
inductive Origin
  /-- So many slots without a type. -/
  | untyped (count : ℕ)
  /-- The slots of a format, with their types. -/
  | scanned (format : Bytes)

/-- How many slots are asked for. -/
def Origin.slots (dialect : Dialect) : Origin → ℕ
  | .untyped count => count
  | .scanned format => countArguments dialect format

/-- The list as it is made. -/
def Origin.make (dialect : Dialect) (heap : Heap) : Origin → ArgumentList
  | .untyped count => (withCount dialect count heap).1
  | .scanned format => (scan dialect format heap).1

/-- What is done to a list that was made. -/
inductive Operation
  | assignTypes (format : Bytes)
  | extract (arguments : List Argument)
  | get (index : ℕ)
  /-- Rendering into a buffer, or measuring. -/
  | render (format : Bytes) (buffer : Option Bytes)

/-- What an operation gives back. -/
inductive Answer
  | nothing
  | slot (slot : Option Slot)
  | rendered (length : ℕ) (buffer : Option Bytes)

/-- The list behind an operation, and the answer. -/
def perform (dialect : Dialect) (list : ArgumentList) : Operation → ArgumentList × Answer
  | .assignTypes format => (list.assignTypes dialect format, .nothing)
  | .extract arguments => (list.extract arguments, .nothing)
  | .get index => (list, .slot (list.get? index))
  | .render format none => (list, .rendered (BoundedFormat.render dialect format list).measure none)
  | .render format (some buffer) =>
    let stored := (BoundedFormat.render dialect format list).store buffer
    (list, .rendered stored.length (some stored.buffer))

/-- Operations one behind the other, and all their answers. -/
def performAll {σ : Type} (step : σ → Operation → σ × Answer) (state : σ) :
    List Operation → σ × List Answer
  | [] => (state, [])
  | operation :: rest =>
    let behind := performAll step (step state operation).1 rest
    (behind.1, (step state operation).2 :: behind.2)

end ArgumentList

/-! ## The same on a vector -/

namespace SlotVector

open ArgumentList (Origin Operation Answer)

/-- Gives every slot the type that the last directive to name it asks for. -/
def assignTypes (dialect : Dialect) (format : Bytes) (slots : List Slot) : List Slot :=
  slots.mapIdx fun index slot => { slot with
    type := ((namers (argumentSpecs dialect format) index).getLast?.bind
      (·.slotType?)).getD slot.type }

/-- The bytes of a format over a vector of slots. -/
def rendered (dialect : Dialect) (format : Bytes) (slots : List Slot) : Bytes :=
  spell (fun ordinal spec => slotBytes spec ((spec.slotIndex? ordinal).bind (slots[·]?))) 0
    (pieces dialect format)

/-- A vector with the room that there is. -/
def make (dialect : Dialect) (heap : Heap) (origin : Origin) : List Slot :=
  let slots := List.replicate (heap.slotRoom dialect (origin.slots dialect)) {}
  match origin with
  | .untyped _ => slots
  | .scanned format => assignTypes dialect format slots

/-- The vector behind an operation, and the answer. -/
def perform (dialect : Dialect) (slots : List Slot) : Operation → List Slot × Answer
  | .assignTypes format => (assignTypes dialect format slots, .nothing)
  | .extract arguments => (List.zipWith Slot.load slots arguments, .nothing)
  | .get index => (slots, .slot slots[index]?)
  | .render format buffer =>
    let text := rendered dialect format slots
    (slots, .rendered (saturate text.length) (buffer.map (terminated text)))

end SlotVector

namespace ArgumentList

theorem toList_assignTypes (dialect : Dialect) (format : Bytes) (list : ArgumentList) :
    (list.assignTypes dialect format).toList =
      SlotVector.assignTypes dialect format list.toList := by
  apply List.ext_getElem?
  intro index
  rw [← get?_eq_toList, get?_assignTypes, get?_eq_toList, SlotVector.assignTypes,
    List.getElem?_mapIdx]

theorem toList_extract {list : ArgumentList} (h : list.Fits) (arguments : List Argument) :
    (list.extract arguments).toList = List.zipWith Slot.load list.toList arguments := by
  apply List.ext_getElem?
  intro index
  rw [← get?_eq_toList, get?_extract h, get?_eq_toList, List.getElem?_zipWith]
  cases list.toList[index]? with
  | none => rfl
  | some slot => cases arguments[index]? <;> rfl

theorem toBytes_render_toList (dialect : Dialect) (format : Bytes) (list : ArgumentList) :
    (render dialect format list).toBytes = SlotVector.rendered dialect format list.toList := by
  have hget : list.get? = (list.toList[·]?) := funext list.get?_eq_toList
  rw [toBytes_render, SlotVector.rendered]
  simp only [read?, hget]

theorem toList_make (dialect : Dialect) (heap : Heap) (origin : Origin) :
    (origin.make dialect heap).toList = SlotVector.make dialect heap origin := by
  have hcount (count : ℕ) : (withCount dialect count heap).1.toList =
      List.replicate (heap.slotRoom dialect count) {} := by
    apply List.ext_getElem?
    intro index
    rw [← get?_eq_toList, (withCount_spec dialect count heap).2.2, List.getElem?_replicate]
  cases origin with
  | untyped count => exact hcount count
  | scanned format =>
      rw [Origin.make, scan_fst, toList_assignTypes, hcount]
      rfl

/-- A list that fits does what the vector of its slots does. -/
theorem toList_perform {list : ArgumentList} (h : list.Fits) (dialect : Dialect)
    (operation : Operation) :
    ((list.perform dialect operation).1.toList, (list.perform dialect operation).2) =
      SlotVector.perform dialect list.toList operation := by
  cases operation with
  | assignTypes format => rw [perform, toList_assignTypes]; rfl
  | extract arguments => rw [perform, toList_extract h]; rfl
  | get index => rw [perform, get?_eq_toList]; rfl
  | render format buffer =>
      cases buffer with
      | none => rw [perform, measure_eq, toBytes_render_toList]; rfl
      | some buffer => rw [perform, store_eq, toBytes_render_toList]; rfl

/-! ## What an operation leaves alone -/

/-- A length that the list is cut down to, if it is longer. -/
def Operation.limit? : Operation → Option ℕ
  | .extract arguments => some arguments.length
  | _ => none

/-- What an operation keeps of a slot that it may change. -/
def Operation.Keeps (slot next : Slot) : Operation → Prop
  | .assignTypes _ => next.value = slot.value ∧ next.referent = slot.referent
  | .extract _ => next.type = slot.type
  | .get _ | .render .. => next = slot

/-- An operation moves no slots, changes none but those in use behind it, and of these only what is
its own. -/
structure Operation.Confined (operation : Operation) (list next : ArgumentList) : Prop where
  placement : next.placement = list.placement
  length : next.storage.length = list.storage.length
  size : next.size = operation.limit?.elim list.size (min list.size)
  beyond : ∀ index, next.size ≤ index → next.storage[index]? = list.storage[index]?
  within : ∀ index < next.size, ∃ slot nextSlot, list.get? index = some slot ∧
    next.get? index = some nextSlot ∧ operation.Keeps slot nextSlot

/-- A slot in use is there. -/
theorem exists_get? {list : ArgumentList} (h : list.Fits) {index : ℕ}
    (hindex : index < list.size) : ∃ slot, list.get? index = some slot := by
  rw [← Option.ne_none_iff_exists', Ne, get?_eq_none_iff h]
  omega

theorem confined_assignTypes {list : ArgumentList} (h : list.Fits) (dialect : Dialect)
    (format : Bytes) :
    (Operation.assignTypes format).Confined list (list.assignTypes dialect format) := by
  have hroom := sameRoom_assignTypes dialect format list
  refine ⟨hroom.placement, hroom.length, hroom.size, ?_, ?_⟩
  · intro index hindex
    exact hroom.beyond index (by rwa [← hroom.size])
  · intro index hindex
    rw [hroom.size] at hindex
    obtain ⟨slot, hslot⟩ := exists_get? h hindex
    have hnext := list.get?_assignTypes dialect format index
    rw [hslot, Option.map_some] at hnext
    exact ⟨slot, _, hslot, hnext, rfl, rfl⟩

theorem confined_extract {list : ArgumentList} (h : list.Fits) (arguments : List Argument) :
    (Operation.extract arguments).Confined list (list.extract arguments) := by
  refine ⟨rfl, length_storage_extract h arguments, size_extract list arguments, ?_, ?_⟩
  · intro index hindex
    exact getElem?_storage_extract_of_le h arguments hindex
  · intro index hindex
    rw [size_extract, Nat.lt_min] at hindex
    obtain ⟨slot, hslot⟩ := exists_get? h hindex.1
    refine ⟨slot, slot.load arguments[index], hslot, ?_, rfl⟩
    rw [get?_extract h, hslot, Option.bind_some, List.getElem?_eq_getElem hindex.2,
      Option.map_some]

theorem confined_perform {list : ArgumentList} (h : list.Fits) (dialect : Dialect)
    (operation : Operation) : operation.Confined list (list.perform dialect operation).1 := by
  have hkept (hlimit : operation.limit? = none) (hkeeps : ∀ slot, operation.Keeps slot slot) :
      operation.Confined list list := by
    refine ⟨rfl, rfl, by rw [hlimit]; rfl, fun _ _ => rfl, ?_⟩
    intro index hindex
    obtain ⟨slot, hslot⟩ := exists_get? h hindex
    exact ⟨slot, slot, hslot, hslot, hkeeps slot⟩
  cases operation with
  | assignTypes format => exact confined_assignTypes h dialect format
  | extract arguments => exact confined_extract h arguments
  | get index => exact hkept rfl fun _ => rfl
  | render format buffer => cases buffer <;> exact hkept rfl fun _ => rfl

/-! ## Runs of operations -/

variable {dialect : Dialect} {heap : Heap} {list next : ArgumentList}

theorem Operation.Confined.size_le {operation : Operation}
    (h : operation.Confined list next) : next.size ≤ list.size := by
  rw [h.size]
  cases operation.limit? with
  | none => exact Nat.le_refl _
  | some limit => exact Nat.min_le_left ..

theorem Operation.Confined.fits {operation : Operation} (h : operation.Confined list next)
    (hfits : list.Fits) : next.Fits := by
  rw [Fits] at hfits ⊢
  rw [h.length]
  exact Nat.le_trans h.size_le hfits

theorem fits_make (dialect : Dialect) (heap : Heap) (origin : Origin) :
    (origin.make dialect heap).Fits := by
  cases origin with
  | untyped count => exact (withCount_spec dialect count heap).2.1
  | scanned format => exact fits_scan dialect format heap

theorem size_make (dialect : Dialect) (heap : Heap) (origin : Origin) :
    (origin.make dialect heap).size = heap.slotRoom dialect (origin.slots dialect) := by
  cases origin with
  | untyped count => exact (withCount_spec dialect count heap).1
  | scanned format => exact size_scan dialect format heap

/-- After any operations a list fits its storage and has been cut down to the shortest list of
arguments loaded; all along, the vector of its slots did the same. -/
theorem performAll_spec (hfits : list.Fits) (operations : List Operation) :
    let behind := performAll (perform dialect) list operations
    behind.1.Fits ∧
    behind.1.size = (operations.filterMap Operation.limit?).foldl min list.size ∧
    (behind.1.toList, behind.2) =
      performAll (SlotVector.perform dialect) list.toList operations := by
  induction operations generalizing list with
  | nil => exact ⟨hfits, rfl, rfl⟩
  | cons operation rest ih =>
      have hstep := confined_perform hfits dialect operation
      have hvector := toList_perform hfits dialect operation
      obtain ⟨hbehind, hsize, hanswers⟩ := ih (hstep.fits hfits)
      refine ⟨hbehind, ?_, ?_⟩
      · rw [performAll, hsize, hstep.size, List.filterMap_cons]
        cases operation.limit? <;> rfl
      · rw [performAll, performAll, ← hvector, ← hanswers]

end ArgumentList
end BoundedFormat
