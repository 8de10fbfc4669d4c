import BoundedFormat.Proofs.SlotVector

/-!
# A list of slots in two stores

An `ArgumentList` has one store and says where it is. `SlotStores` has both, the 32 slots at hand and
the ones in the heap; a flag selects the store in use, another tells that slots were dropped, and a
number of its own says how many slots are in use. Every access goes to the selected store and is
checked: it fails where an index or a slice leaves the store. The main statement follows the stores
from where they were made through any operations, in any order and with any formats. No access
fails, and what is answered is what a plain vector of the slots in use answers.
-/

namespace BoundedFormat

open ArgumentList (Origin Operation Answer inlineSlots)

/-- The slots of one formatting run as they lie in memory. -/
structure SlotStores where
  /-- The slots at hand. -/
  inline : List Slot
  /-- The slots in the heap. -/
  spilled : List Slot
  onHeap : Bool
  truncated : Bool
  /-- How many slots of the selected store, from the first, are in use. -/
  count : ℕ

namespace SlotStores

/-! ## Checked access -/

/-- The selected store. -/
def selected (s : SlotStores) : List Slot := if s.onHeap then s.spilled else s.inline

/-- Other slots in the selected store. -/
def replace (s : SlotStores) (slots : List Slot) : SlotStores :=
  if s.onHeap then { s with spilled := slots } else { s with inline := slots }

/-- The first slots of a store, unless it has fewer. -/
def front? (store : List Slot) (count : ℕ) : Option (List Slot) :=
  if count ≤ store.length then some (store.take count) else none

/-- Types the slot at an index, unless the index leaves the store. -/
def setType? (store : List Slot) (index : ℕ) (type : SlotType) : Option (List Slot) :=
  store[index]?.map fun slot => store.set index { slot with type }

/-- The slots in use. -/
def slots? (s : SlotStores) : Option (List Slot) := front? s.selected s.count

/-- The slot with an index, if it is in use. -/
def get? (s : SlotStores) (index : ℕ) : Option (Option Slot) := s.slots?.map (·[index]?)

/-! ## Operations -/

/-- A list of `count` untyped slots. -/
def withCount (dialect : Dialect) (count : ℕ) (heap : Heap) : SlotStores × Heap :=
  let s : SlotStores :=
    { inline := List.replicate inlineSlots {}, spilled := [], onHeap := false, truncated := false
      count }
  if inlineSlots < count then
    match heap.request count dialect.slotBytes with
    | (true, heap) => ({ s with spilled := List.replicate count {}, onHeap := true }, heap)
    | (false, heap) => ({ s with count := inlineSlots, truncated := true }, heap)
  else (s, heap)

/-- Types every slot in use that a directive names. -/
def assignTypes? (dialect : Dialect) (format : Bytes) (s : SlotStores) : Option SlotStores :=
  let assign := fun store (index, type) =>
    if index < s.count then setType? store index type else some store
  ((slotUses dialect format).foldlM assign s.selected).map s.replace

/-- Loads one argument into each slot, in order, as many as there are. -/
def extract? (arguments : List Argument) (s : SlotStores) : Option SlotStores :=
  let count := min s.count arguments.length
  (front? s.selected count).map fun slots =>
    { s.replace (List.zipWith Slot.load slots arguments ++ s.selected.drop count) with count }

/-- The output of pieces of a format. -/
def renderPieces? (s : SlotStores) : (ordinal : ℕ) → List Piece → Option Output
  | _, [] => some []
  | ordinal, .literal raw :: rest | ordinal, .incomplete raw :: rest =>
    (renderPieces? s ordinal rest).map (.bytes raw :: ·)
  | ordinal, .directive spec _ :: rest =>
    match spec.conversion with
    | .percent => (renderPieces? s ordinal rest).map (.bytes [ascii '%'] :: ·)
    | .literal letter => (renderPieces? s ordinal rest).map (.bytes [letter] :: ·)
    | _ => do
      let found ← (spec.slotIndex? ordinal).elim (some none) s.get?
      let output ← renderPieces? s (ordinal + 1) rest
      return found.elim output fun slot => renderSlot spec slot ++ output

/-- The list as it is made. -/
def make? (dialect : Dialect) (heap : Heap) : Origin → Option SlotStores
  | .untyped count => some (withCount dialect count heap).1
  | .scanned format =>
    (withCount dialect (countArguments dialect format) heap).1.assignTypes? dialect format

/-- The list behind an operation, and the answer. -/
def perform? (dialect : Dialect) (s : SlotStores) : Operation → Option (SlotStores × Answer)
  | .assignTypes format => (s.assignTypes? dialect format).map (·, .nothing)
  | .extract arguments => (s.extract? arguments).map (·, .nothing)
  | .get index => (s.get? index).map fun slot => (s, .slot slot)
  | .render format none =>
    (s.renderPieces? 0 (pieces dialect format)).map fun output =>
      (s, .rendered output.measure none)
  | .render format (some buffer) =>
    (s.renderPieces? 0 (pieces dialect format)).map fun output =>
      let stored := output.store buffer
      (s, .rendered stored.length (some stored.buffer))

/-- Operations one behind the other, and all their answers. -/
def performAll? (dialect : Dialect) (s : SlotStores) :
    List Operation → Option (SlotStores × List Answer)
  | [] => some (s, [])
  | operation :: rest => do
    let (next, answer) ← s.perform? dialect operation
    let (behind, answers) ← performAll? dialect next rest
    return (behind, answer :: answers)

/-! ## The list that two stores stand for -/

/-- The list with the selected store. -/
def view (s : SlotStores) : ArgumentList where
  storage := s.selected
  size := s.count
  placement := if s.onHeap then .spilled else if s.truncated then .truncated else .inline

/-- The store that is not selected. -/
def idle (s : SlotStores) : List Slot := if s.onHeap then s.inline else s.spilled

/-- The flags are the same, and so are the store that is not selected and the size of the other. -/
structure Beside (s next : SlotStores) : Prop where
  onHeap : next.onHeap = s.onHeap
  truncated : next.truncated = s.truncated
  idle : next.idle = s.idle
  length : next.selected.length = s.selected.length

theorem Beside.refl (s : SlotStores) : s.Beside s := ⟨rfl, rfl, rfl, rfl⟩

theorem Beside.trans {s middle next : SlotStores} (hfirst : s.Beside middle)
    (hsecond : middle.Beside next) : s.Beside next where
  onHeap := hsecond.onHeap.trans hfirst.onHeap
  truncated := hsecond.truncated.trans hfirst.truncated
  idle := hsecond.idle.trans hfirst.idle
  length := hsecond.length.trans hfirst.length

/-- As many other slots, and another number of them in use, leave the rest alone. -/
theorem beside_replace {s : SlotStores} {slots : List Slot}
    (hlength : slots.length = s.selected.length) (count : ℕ) :
    s.Beside { s.replace slots with count } := by
  rcases s with ⟨_, _, _ | _, _, _⟩ <;> exact ⟨rfl, rfl, rfl, hlength⟩

theorem view_replace (s : SlotStores) (slots : List Slot) (count : ℕ) :
    ({ s.replace slots with count } : SlotStores).view =
      { s.view with storage := slots, size := count } := by
  rcases s with ⟨_, _, _ | _, _, _⟩ <;> rfl

theorem count_replace (s : SlotStores) (slots : List Slot) :
    { s.replace slots with count := s.count } = s.replace slots := by
  rcases s with ⟨_, _, _ | _, _, _⟩ <;> rfl

/-- Both lists ask the heap alike, and come out alike. -/
theorem view_withCount (dialect : Dialect) (count : ℕ) (heap : Heap) :
    ((withCount dialect count heap).1.view, (withCount dialect count heap).2) =
      ArgumentList.withCount dialect count heap := by
  rw [withCount, ArgumentList.withCount]
  by_cases hcount : count ≤ inlineSlots
  · rw [if_neg (Nat.not_lt_of_le hcount), if_pos hcount]
    rfl
  · rw [if_pos (Nat.lt_of_not_le hcount), if_neg hcount]
    rcases heap.request count dialect.slotBytes with ⟨_ | _, rest⟩ <;> rfl

section Step

variable {s : SlotStores}

theorem front?_eq_some {store : List Slot} {count : ℕ} (h : count ≤ store.length) :
    front? store count = some (store.take count) := if_pos h

/-- Typing the slots in use never leaves the store. -/
theorem foldlM_assign {list : ArgumentList} (hfits : list.Fits) (uses : List (ℕ × SlotType)) :
    uses.foldlM (fun store (index, type) =>
      if index < list.size then setType? store index type else some store) list.storage =
      some (uses.foldl ArgumentList.setType list).storage := by
  induction uses generalizing list with
  | nil => rfl
  | cons use uses ih =>
      obtain ⟨index, type⟩ := use
      have hroom := ArgumentList.sameRoom_setType list (index, type)
      have hnext : (list.setType (index, type)).Fits := by
        rwa [ArgumentList.Fits, hroom.size, hroom.length]
      have hset : (if index < list.size then setType? list.storage index type
          else some list.storage) = some (list.setType (index, type)).storage := by
        rw [ArgumentList.setType]
        by_cases hindex : index < list.size
        · have hstore : index < list.storage.length := Nat.lt_of_lt_of_le hindex hfits
          simp only [if_pos hindex, setType?, List.getElem?_eq_getElem hstore, Option.map_some,
            List.modify_eq_set_getElem?]
          rfl
        · simp only [if_neg hindex]
      rw [List.foldlM_cons, List.foldl_cons]
      simp only [hset, Option.bind_eq_bind, Option.bind_some]
      rw [← hroom.size]
      exact ih hnext

theorem assignTypes?_spec (hfits : s.view.Fits) (dialect : Dialect) (format : Bytes) :
    ∃ next, s.assignTypes? dialect format = some next ∧
      next.view = s.view.assignTypes dialect format ∧ s.Beside next := by
  have hassign := foldlM_assign hfits (slotUses dialect format)
  have hroom := ArgumentList.sameRoom_assignTypes dialect format s.view
  refine ⟨s.replace (s.view.assignTypes dialect format).storage, ?_, ?_, ?_⟩
  · rw [assignTypes?]
    exact congrArg (Option.map s.replace) hassign
  · rw [← count_replace, view_replace]
    rcases hview : s.view.assignTypes dialect format with ⟨storage, size, placement⟩
    rw [hview] at hroom
    simp only [ArgumentList.mk.injEq, true_and]
    exact ⟨hroom.size.symm, hroom.placement.symm⟩
  · rw [← count_replace]
    exact beside_replace hroom.length s.count

theorem extract?_spec (hfits : s.view.Fits) (arguments : List Argument) :
    ∃ next, s.extract? arguments = some next ∧
      next.view = s.view.extract arguments ∧ s.Beside next := by
  have hfront : min s.count arguments.length ≤ s.selected.length :=
    Nat.le_trans (Nat.min_le_left ..) hfits
  refine ⟨_, ?_, view_replace s _ _,
    beside_replace (ArgumentList.length_storage_extract hfits arguments) _⟩
  rw [extract?, front?_eq_some hfront, Option.map_some]
  rfl

theorem get?_spec (hfits : s.view.Fits) (index : ℕ) : s.get? index = some (s.view.get? index) := by
  have hfront : s.count ≤ s.selected.length := hfits
  rw [get?, slots?, front?_eq_some hfront, Option.map_some, ArgumentList.get?_eq_toList]
  rfl

theorem renderPieces?_spec (hfits : s.view.Fits) (ordinal : ℕ) (pieces : List Piece) :
    s.renderPieces? ordinal pieces = some (renderPieces s.view ordinal pieces) := by
  induction pieces generalizing ordinal with
  | nil => rfl
  | cons piece rest ih =>
      cases piece with
      | literal raw | incomplete raw =>
          rw [renderPieces?, ih]
          rfl
      | directive spec raw =>
          have hfound : (spec.slotIndex? ordinal).elim (some none) s.get? =
              some ((spec.slotIndex? ordinal).bind s.view.get?) := by
            cases spec.slotIndex? ordinal with
            | none => rfl
            | some index => exact get?_spec hfits index
          rw [renderPieces?, renderPieces]
          cases spec.conversion with
          | percent | literal letter => simp only [ih, Option.map_some]
          | _ =>
              simp only [hfound, ih, Option.bind_eq_bind, Option.bind_some]
              cases (spec.slotIndex? ordinal).bind s.view.get? <;> rfl

theorem make?_spec (dialect : Dialect) (heap : Heap) (origin : Origin) :
    ∃ start, make? dialect heap origin = some start ∧ start.view = origin.make dialect heap ∧
      (withCount dialect (origin.slots dialect) heap).1.Beside start := by
  cases origin with
  | untyped count =>
      exact ⟨_, rfl, congrArg Prod.fst (view_withCount dialect count heap), .refl _⟩
  | scanned format =>
      have hview : (withCount dialect (countArguments dialect format) heap).1.view =
          (ArgumentList.withCount dialect (countArguments dialect format) heap).1 :=
        congrArg Prod.fst (view_withCount dialect _ heap)
      have hfits : (withCount dialect (countArguments dialect format) heap).1.view.Fits := by
        rw [hview]
        exact (ArgumentList.withCount_spec dialect _ heap).2.1
      obtain ⟨start, hstart, hassigned, hbeside⟩ := assignTypes?_spec hfits dialect format
      refine ⟨start, hstart, ?_, hbeside⟩
      rw [hassigned, hview]
      rfl

/-- An operation on stores that are large enough does not fail, and does what it does to the list
that they stand for. -/
theorem perform?_spec (hfits : s.view.Fits) (dialect : Dialect) (operation : Operation) :
    ∃ next, s.perform? dialect operation =
        some (next, (s.view.perform dialect operation).2) ∧
      next.view = (s.view.perform dialect operation).1 ∧ s.Beside next := by
  cases operation with
  | assignTypes format =>
      obtain ⟨next, hnext, hview, hbeside⟩ := assignTypes?_spec hfits dialect format
      refine ⟨next, ?_, hview, hbeside⟩
      rw [perform?, hnext]
      rfl
  | extract arguments =>
      obtain ⟨next, hnext, hview, hbeside⟩ := extract?_spec hfits arguments
      refine ⟨next, ?_, hview, hbeside⟩
      rw [perform?, hnext]
      rfl
  | get index =>
      refine ⟨s, ?_, rfl, .refl s⟩
      rw [perform?, get?_spec hfits]
      rfl
  | render format buffer =>
      have hrender := renderPieces?_spec hfits 0 (pieces dialect format)
      refine ⟨s, ?_, ?_, .refl s⟩ <;> cases buffer
      · rw [perform?, hrender]
        rfl
      · rw [perform?, hrender]
        rfl
      · rfl
      · rfl

/-! ## Runs of operations -/

/-- Operations on stores that are large enough do not fail, and do what they do to the list that the
stores stand for. -/
theorem performAll?_spec (hfits : s.view.Fits) (dialect : Dialect) (operations : List Operation) :
    let run := ArgumentList.performAll (ArgumentList.perform dialect) s.view operations
    ∃ behind, s.performAll? dialect operations = some (behind, run.2) ∧
      behind.view = run.1 ∧ s.Beside behind := by
  induction operations generalizing s with
  | nil => exact ⟨s, rfl, rfl, .refl s⟩
  | cons operation rest ih =>
      obtain ⟨next, hnext, hview, hbeside⟩ := perform?_spec hfits dialect operation
      have hnextFits : next.view.Fits := by
        rw [hview]
        exact (ArgumentList.confined_perform hfits dialect operation).fits hfits
      obtain ⟨behind, hbehind, hrest, hkept⟩ := ih hnextFits
      refine ⟨behind, ?_, ?_, hbeside.trans hkept⟩
      · simp only [performAll?, hnext, hbehind, Option.bind_eq_bind, Option.bind_some]
        rw [hview]
        rfl
      · rw [hrest, hview]
        rfl

/-- An operation keeps both flags, the size of both stores and all of the one that is not selected,
and changes no slots of the other but those in use behind it, and of these only what is its own. -/
structure Confined (operation : Operation) (s next : SlotStores) : Prop where
  beside : s.Beside next
  count : next.count = operation.limit?.elim s.count (min s.count)
  beyond : ∀ index, next.count ≤ index → next.selected[index]? = s.selected[index]?
  within : ∀ index < next.count, ∃ slot nextSlot, s.selected[index]? = some slot ∧
    next.selected[index]? = some nextSlot ∧ operation.Keeps slot nextSlot

/-- A slot of the list that the stores stand for is one of the selected store. -/
theorem selected_of_get? {index : ℕ} {slot : Slot} (h : s.view.get? index = some slot) :
    s.selected[index]? = some slot := by
  rw [ArgumentList.get?, Option.ite_none_right_eq_some] at h
  exact h.2

theorem confined_perform? (hfits : s.view.Fits) (dialect : Dialect) (operation : Operation) :
    ∃ next answer, s.perform? dialect operation = some (next, answer) ∧
      Confined operation s next := by
  obtain ⟨next, hnext, hview, hbeside⟩ := perform?_spec hfits dialect operation
  have hlist := ArgumentList.confined_perform hfits dialect operation
  rw [← hview] at hlist
  refine ⟨next, _, hnext, hbeside, hlist.size, hlist.beyond, ?_⟩
  intro index hindex
  obtain ⟨slot, nextSlot, hslot, hnextSlot, hkeeps⟩ := hlist.within index hindex
  exact ⟨slot, nextSlot, selected_of_get? hslot, selected_of_get? hnextSlot, hkeeps⟩

/-- The stores that were made for `count` slots: 32 at hand, and as many as were asked for in the
heap if it granted them. Each flag tells what the heap said, if it was asked. The slots in use are
all there. -/
structure Sound (dialect : Dialect) (heap : Heap) (count : ℕ) (s : SlotStores) : Prop where
  fits : s.count ≤ s.selected.length
  inline : s.inline.length = 32
  spilled : s.spilled.length = if s.onHeap then count else 0
  onHeap : s.onHeap = true ↔ 32 < count ∧ (heap.request count dialect.slotBytes).1 = true
  truncated : s.truncated = true ↔ 32 < count ∧ (heap.request count dialect.slotBytes).1 = false

theorem sound_withCount (dialect : Dialect) (heap : Heap) (count : ℕ) :
    Sound dialect heap count (withCount dialect count heap).1 := by
  have hinline : inlineSlots = 32 := rfl
  rw [withCount, hinline]
  by_cases hmany : 32 < count
  · rw [if_pos hmany]
    rcases hrequest : heap.request count dialect.slotBytes with ⟨_ | _, rest⟩ <;>
      constructor <;> simp [selected, hmany, hrequest]
  · rw [if_neg hmany]
    constructor <;> simp [selected, hmany]
    omega

/-- Stores stay sound as long as the slots in use are all there. -/
theorem Sound.of_beside {dialect : Dialect} {heap : Heap} {count : ℕ} {next : SlotStores}
    (H : Sound dialect heap count s) (hbeside : s.Beside next)
    (hfits : next.count ≤ next.selected.length) : Sound dialect heap count next := by
  obtain ⟨honHeap, htruncated, hidle, hlength⟩ := hbeside
  obtain ⟨-, hinline, hspilled, hheap, hshort⟩ := H
  rcases s with ⟨inline, spilled, onHeap, truncated, size⟩
  rcases next with ⟨inline', spilled', onHeap', truncated', size'⟩
  simp only at honHeap htruncated hinline hspilled
  subst honHeap htruncated
  refine ⟨hfits, ?_, ?_, hheap, hshort⟩ <;>
    cases onHeap' <;> simp_all [selected, idle]

end Step

/-- **A list in two stores behaves as a plain vector of its slots.** However a list was made, and
whatever was done to it since, no index and no slice left a store. There are 32 slots at hand, and
in the heap as many as were asked for, if that was more and was granted. One flag tells this, the
other that it was refused; they are never both set and never change. There are as many slots in use
as there was room for, or as the shortest list of arguments loaded has, and just these can be looked
up. The next operation does not fail either, and changes no more than the types or the loaded values
of slots in use. The slots in use and the answers to all operations are those of the vector. -/
theorem list_behaves_as_vector (dialect : Dialect) (heap : Heap) (origin : Origin)
    (operations : List Operation) :
    let count := origin.slots dialect
    let granted := (heap.request count dialect.slotBytes).1
    ∃ start behind answers, make? dialect heap origin = some start ∧
      start.performAll? dialect operations = some (behind, answers) ∧
      Sound dialect heap count behind ∧
      (behind.onHeap = start.onHeap ∧ behind.truncated = start.truncated) ∧
      ¬ (behind.onHeap = true ∧ behind.truncated = true) ∧
      start.count = (if count ≤ 32 ∨ granted = true then count else 32) ∧
      behind.count = (operations.filterMap Operation.limit?).foldl min start.count ∧
      (∀ index, ∃ slot, behind.get? index = some slot ∧ (slot.isSome ↔ index < behind.count)) ∧
      (∀ operation : Operation, ∃ next answer,
        behind.perform? dialect operation = some (next, answer) ∧
        Confined operation behind next) ∧
      ∃ slots, behind.slots? = some slots ∧
        (slots, answers) =
          ArgumentList.performAll (SlotVector.perform dialect)
            (SlotVector.make dialect heap origin) operations := by
  intro count granted
  obtain ⟨start, hstart, hview, hbeside⟩ := make?_spec dialect heap origin
  have hfits : start.view.Fits := by
    rw [hview]
    exact ArgumentList.fits_make dialect heap origin
  obtain ⟨behind, hbehind, hrun, hkept⟩ := performAll?_spec hfits dialect operations
  obtain ⟨hbehindFits, hsize, hanswers⟩ := ArgumentList.performAll_spec hfits operations
  rw [← hrun] at hbehindFits hsize hanswers
  have hvector : start.view.toList = SlotVector.make dialect heap origin := by
    rw [hview, ArgumentList.toList_make]
  rw [hvector] at hanswers
  have hsound : Sound dialect heap count behind :=
    (sound_withCount dialect heap count).of_beside (hbeside.trans hkept) hbehindFits
  refine ⟨start, behind, _, hstart, hbehind, hsound, ⟨hkept.onHeap, hkept.truncated⟩, ?_, ?_,
    hsize, ?_, confined_perform? hbehindFits dialect, behind.view.toList, ?_, hanswers⟩
  · rintro ⟨honHeap, htruncated⟩
    have hgranted := (hsound.onHeap.mp honHeap).2
    rw [(hsound.truncated.mp htruncated).2] at hgranted
    cases hgranted
  · have hroom := ArgumentList.size_make dialect heap origin
    rw [← hview] at hroom
    exact hroom
  · intro index
    refine ⟨_, get?_spec hbehindFits index, ?_⟩
    rw [Option.isSome_iff_ne_none, Ne, ArgumentList.get?_eq_none_iff hbehindFits, Nat.not_le]
    rfl
  · exact front?_eq_some hbehindFits

/-- The heap refuses 33 slots. Later scans name slots that are not there, or no longer in use. -/
theorem list_behaves_as_vector_refused :
    let heap := Heap.answering [false]
    let origin := Origin.scanned (List.replicate 33 (textBytes "%d")).flatten
    let operations : List Operation :=
      [.extract (List.replicate 40 (.int 0x1ff)), .assignTypes (textBytes "%33$x%2$hhx"),
        .extract [.int 7, .int 0x1ff], .assignTypes (textBytes "%5$x"), .get 1, .get 2]
    ∃ start behind answers, make? .plain heap origin = some start ∧
      start.performAll? .plain operations = some (behind, answers) ∧
      behind.onHeap = false ∧ behind.truncated = true ∧ start.count = 32 ∧ behind.count = 2 ∧
      behind.slots? = some [{ type := .i32, value := 7 }, { type := .u8, value := 0xff }] := by
  intro heap origin operations
  obtain ⟨start, behind, answers, hstart, hrun, hsound, -, hflags, hroom, hcount, -, -, slots,
    hslots, hanswers⟩ := list_behaves_as_vector .plain heap origin operations
  have hrefused : 32 < origin.slots .plain ∧
      (heap.request (origin.slots .plain) Dialect.plain.slotBytes).1 = false := by decide +kernel
  have htruncated : behind.truncated = true := hsound.truncated.mpr hrefused
  have hthirtyTwo : start.count = 32 := hroom.trans (by decide +kernel)
  have hvector : slots = [{ type := .i32, value := 7 }, { type := .u8, value := 0xff }] :=
    (congrArg Prod.fst hanswers).trans (by decide +kernel)
  refine ⟨start, behind, answers, hstart, hrun, ?_, htruncated, hthirtyTwo, ?_,
    hvector ▸ hslots⟩
  · rw [← Bool.not_eq_true]
    exact fun honHeap => hflags ⟨honHeap, htruncated⟩
  · rw [hcount, hthirtyTwo]
    decide +kernel

end SlotStores
end BoundedFormat
