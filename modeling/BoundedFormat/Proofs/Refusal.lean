import BoundedFormat.Proofs.Agreement
import BoundedFormat.Proofs.Slots

/-!
# When the slots are refused

A format with more directives than there are slots at hand needs room in the heap. A call that is
refused goes on with the slots at hand, and shows what it would have shown of the first arguments
alone. `Heap.allowed` are the arguments that a heap lets a call see; through them, and in no other
way, the output of a call depends on its heap. The main statement compares a call that is refused
with one that is not, slot by slot and in all that the two show.
-/

namespace BoundedFormat

open ArgumentList (inlineSlots)

/-! ## Outputs that stand for the same bytes -/

theorem store_congr {o p : Output} (h : o.toBytes = p.toBytes) (buffer : Bytes) :
    o.store buffer = p.store buffer := by
  rw [store_eq, store_eq, h]

theorem measure_congr {o p : Output} (h : o.toBytes = p.toBytes) : o.measure = p.measure := by
  rw [measure_eq, measure_eq, h]

/-- Rendering looks at nothing but the slots in use. -/
theorem toBytes_render_congr {list list' : ArgumentList} (h : ∀ index, list.get? index =
    list'.get? index) (dialect : Dialect) (format : Bytes) :
    (render dialect format list).toBytes = (render dialect format list').toBytes := by
  have hget : list.get? = list'.get? := funext h
  rw [toBytes_render, toBytes_render]
  simp only [ArgumentList.read?, hget]

/-! ## What a heap lets a call see -/

section Allowed

variable {heap : Heap} {dialect : Dialect} {count : ℕ}

theorem Heap.not_grantsSlots_iff :
    ¬ heap.GrantsSlots dialect count ↔
      inlineSlots < count ∧ (heap.request count dialect.slotBytes).1 = false := by
  rw [GrantsSlots, not_or, Nat.not_le, Bool.not_eq_true]

/-- What any heap grants, the system grants. -/
theorem Heap.GrantsSlots.system (h : heap.GrantsSlots dialect count) :
    Heap.system.GrantsSlots dialect count := by
  rcases h with hinline | hrequest
  · exact .inl hinline
  · refine .inr ?_
    rw [request_system dialect.slotBytes_pos]
    exact decide_eq_true (arrayBytes_le_of_request hrequest)

theorem Heap.le_slotRoom (h : ¬ heap.GrantsSlots dialect count) (other : Heap) :
    inlineSlots ≤ other.slotRoom dialect count := by
  have hmany := (not_grantsSlots_iff.mp h).1
  rw [slotRoom]
  split <;> omega

/-- There are no more slots than directives. -/
theorem Heap.slotRoom_le (heap : Heap) (dialect : Dialect) (count : ℕ) :
    heap.slotRoom dialect count ≤ count := by
  rw [slotRoom]
  split
  · exact Nat.le_refl _
  · next hrefused => exact Nat.le_of_lt (not_grantsSlots_iff.mp hrefused).1

/-- The arguments that a heap lets a call with so many slots see: all of them, or as many as there
are slots at hand. -/
def Heap.allowed (heap : Heap) (dialect : Dialect) (count : ℕ) (arguments : List Argument) :
    List Argument :=
  if heap.GrantsSlots dialect count then arguments else arguments.take inlineSlots

end Allowed

section Collected

variable {dialect : Dialect} {format : Bytes} {heap other : Heap}

/-- A call has the slots that it would have on another heap, one that grants no less, with the
arguments that its own heap allows. -/
theorem get?_collect_allowed
    (hother : heap.GrantsSlots dialect (countArguments dialect format) →
      other.GrantsSlots dialect (countArguments dialect format))
    (arguments : List Argument) (index : ℕ) :
    (ArgumentList.collect dialect format arguments heap).1.get? index =
      (ArgumentList.collect dialect format
        (heap.allowed dialect (countArguments dialect format) arguments) other).1.get? index := by
  rw [ArgumentList.get?_collect, ArgumentList.get?_collect]
  by_cases hgranted : heap.GrantsSlots dialect (countArguments dialect format)
  · simp only [Heap.slotRoom, Heap.allowed, if_pos hgranted, if_pos (hother hgranted)]
  · have hroom := Heap.le_slotRoom hgranted other
    rw [Heap.slotRoom, Heap.allowed, if_neg hgranted, if_neg hgranted]
    by_cases hindex : index < inlineSlots
    · rw [if_pos hindex, if_pos (by omega), List.getElem?_take_of_lt hindex]
    · rw [if_neg hindex, List.getElem?_take_eq_none (by omega), Option.map_none, ite_self]

theorem toBytes_formatOutput_allowed
    (hother : heap.GrantsSlots dialect (countArguments dialect format) →
      other.GrantsSlots dialect (countArguments dialect format))
    (arguments : List Argument) :
    (formatOutput dialect heap format arguments).1.toBytes =
      (formatOutput dialect other format
        (heap.allowed dialect (countArguments dialect format) arguments)).1.toBytes :=
  toBytes_render_congr (get?_collect_allowed hother arguments) dialect format

/-- The output of a call is that of the system, given the arguments that the heap allows. -/
theorem toBytes_formatOutput_system (dialect : Dialect) (heap : Heap) (format : Bytes)
    (arguments : List Argument) :
    (formatOutput dialect heap format arguments).1.toBytes =
      (formatOutput dialect .system format
        (heap.allowed dialect (countArguments dialect format) arguments)).1.toBytes :=
  toBytes_formatOutput_allowed Heap.GrantsSlots.system arguments

/-- The bytes of a directive in a call that has only the slots at hand, `slot` being the slots of a
call that has all of them. -/
def inlineBytes (slot : ℕ → Option Slot) (ordinal : ℕ) (spec : FormatSpec) : Bytes :=
  match spec.slotIndex? ordinal with
  | some index => if index < inlineSlots then slotBytes spec (slot index) else []
  | none => []

/-- **A refused call shows the first arguments.** When a heap refuses the slots of a format, a call
measures and stores what a call that is granted them does with the first arguments alone. It has the
first slots of the granted call, with the same types and values, and no others. A directive that
names one of these shows what it shows in the granted call; every other directive that reads an
argument shows nothing. -/
theorem refused_call_shows_first_arguments (dialect : Dialect) (format : Bytes)
    (arguments : List Argument) (refusing granting : Heap)
    (hmany : inlineSlots < countArguments dialect format)
    (hrefused : (refusing.request (countArguments dialect format) dialect.slotBytes).1 = false)
    (hgranted : (granting.request (countArguments dialect format) dialect.slotBytes).1 = true) :
    let first := arguments.take inlineSlots
    let kept := (ArgumentList.collect dialect format arguments refusing).1
    let whole := (ArgumentList.collect dialect format arguments granting).1
    (∀ buffer : Bytes, (formatInto dialect refusing buffer format arguments).1 =
      (formatInto dialect granting buffer format first).1) ∧
    (formatLength dialect refusing format arguments).1 =
      (formatLength dialect granting format first).1 ∧
    (∀ index, kept.get? index =
      (ArgumentList.collect dialect format first granting).1.get? index) ∧
    (∀ index, kept.get? index = if index < inlineSlots then whole.get? index else none) ∧
    (render dialect format kept).toBytes =
      spell (inlineBytes whole.get?) 0 (pieces dialect format) := by
  intro first kept whole
  have hrefuses : ¬ refusing.GrantsSlots dialect (countArguments dialect format) :=
    Heap.not_grantsSlots_iff.mpr ⟨hmany, hrefused⟩
  have hgrants : granting.GrantsSlots dialect (countArguments dialect format) := .inr hgranted
  have hallowed : refusing.allowed dialect (countArguments dialect format) arguments = first :=
    if_neg hrefuses
  have hslots : ∀ index, kept.get? index =
      (ArgumentList.collect dialect format first granting).1.get? index := by
    intro index
    rw [← hallowed]
    exact get?_collect_allowed (fun _ => hgrants) arguments index
  have hkept : ∀ index,
      kept.get? index = if index < inlineSlots then whole.get? index else none := by
    intro index
    have hroom : index < inlineSlots → index < countArguments dialect format := by omega
    simp only [kept, whole, ArgumentList.get?_collect, Heap.slotRoom, if_neg hrefuses,
      if_pos hgrants]
    by_cases hindex : index < inlineSlots
    · rw [if_pos hindex, if_pos hindex, if_pos (hroom hindex)]
    · rw [if_neg hindex, if_neg hindex]
  have hbytes : (formatOutput dialect refusing format arguments).1.toBytes =
      (formatOutput dialect granting format first).1.toBytes :=
    toBytes_render_congr hslots dialect format
  refine ⟨fun buffer => store_congr hbytes buffer, measure_congr hbytes, hslots, hkept, ?_⟩
  rw [toBytes_render]
  apply spell_congr
  intro k spec _
  rw [Nat.zero_add, ArgumentList.read?, inlineBytes]
  cases spec.slotIndex? k with
  | none => rfl
  | some index =>
      simp only [Option.bind_some, hkept]
      split <;> rfl

theorem refused_call_shows_first_arguments_retyped :
    let format := (List.replicate 32 (textBytes "%d")).flatten ++ textBytes "%x%1$hhx"
    let arguments := Argument.int (-1) :: List.replicate 32 (Argument.int 7)
    let budget := Heap.budget { remaining := 1000 }
    inlineSlots < countArguments .plain format ∧
    (budget.request (countArguments .plain format) Dialect.plain.slotBytes).1 = false ∧
    (Heap.system.request (countArguments .plain format) Dialect.plain.slotBytes).1 = true ∧
    (formatInto .plain budget (List.replicate 40 1) format arguments).1 =
      { length := 36
        buffer := textBytes "255" ++ List.replicate 31 (ascii '7') ++ textBytes "ff" ++
          [0, 1, 1, 1] } := by
  intro format arguments budget
  have hmany : inlineSlots < countArguments .plain format := by decide +kernel
  have hrefused : (budget.request (countArguments .plain format)
      Dialect.plain.slotBytes).1 = false := by decide +kernel
  have hgranted : (Heap.system.request (countArguments .plain format)
      Dialect.plain.slotBytes).1 = true := by decide +kernel
  refine ⟨hmany, hrefused, hgranted, ?_⟩
  rw [(refused_call_shows_first_arguments .plain format arguments budget .system hmany hrefused
    hgranted).1]
  decide +kernel

end Collected
end BoundedFormat
