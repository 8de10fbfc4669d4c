import BoundedFormat.Proofs.Directive.Splitting
import BoundedFormat.Proofs.PendingError
import BoundedFormat.Proofs.Refusal
import Mathlib.Algebra.Ring.Nat

/-!
# Allocating on a budget

An allocation asks its heap for the slots of the call and then for the text. The two requests share
one budget but not what a refusal means: without the slots the call goes on with those at hand,
without the text it fails. The main statement says what comes of every budget. More memory can make
a call fail: slots that are granted cost what the text would have needed, and can make it longer.
-/

namespace BoundedFormat

open ArgumentList (inlineSlots)

/-- What a heap is asked to pay for so many slots: those at hand cost nothing. -/
def slotCost (dialect : Dialect) (count : ℕ) : ℕ :=
  if inlineSlots < count then dialect.slotBytes * count else 0

/-- The slots of a format that any memory could hold fit one allocation. -/
theorem slotBytes_mul_countArguments_le (dialect : Dialect) {format : Bytes}
    (hformat : format.length < 2 ^ 56) :
    dialect.slotBytes * countArguments dialect format ≤ maxAllocation := by
  have hcount := countArguments_le_length dialect format
  have hslot : dialect.slotBytes ≤ 40 := by cases dialect <;> decide
  calc dialect.slotBytes * countArguments dialect format ≤ 40 * 2 ^ 56 :=
        Nat.mul_le_mul hslot (by omega)
    _ ≤ maxAllocation := by decide

namespace Heap

variable {dialect : Dialect} {b : Budget} {count : ℕ}

/-! ## Slots from a budget -/

theorem request_slots (hfits : dialect.slotBytes * count ≤ maxAllocation) :
    (Heap.budget b).request count dialect.slotBytes =
      if dialect.slotBytes * count ≤ b.remaining then
        (true, .budget { b with remaining := b.remaining - dialect.slotBytes * count })
      else (false, .budget { b with failures := b.failures + 1 }) := by
  have hroom : maxAllocation < maxLength := by decide
  have hbytes : arrayBytes count dialect.slotBytes = dialect.slotBytes * count := by
    rw [arrayBytes_of_le] <;> rw [Nat.mul_comm]
    omega
  rw [request_budget dialect.slotBytes_pos, hbytes]
  by_cases hpaid : dialect.slotBytes * count ≤ b.remaining
  · rw [if_pos ⟨hfits, hpaid⟩, if_pos hpaid]
  · rw [if_neg (fun h => hpaid h.2), if_neg hpaid, if_pos (Nat.lt_of_not_le hpaid)]

theorem grantsSlots_budget (hfits : dialect.slotBytes * count ≤ maxAllocation) :
    (Heap.budget b).GrantsSlots dialect count ↔ slotCost dialect count ≤ b.remaining := by
  rw [GrantsSlots, slotCost, request_slots hfits]
  by_cases hcount : count ≤ inlineSlots
  · simp [hcount, Nat.not_lt_of_le hcount]
  · by_cases hpaid : dialect.slotBytes * count ≤ b.remaining <;>
      simp [hcount, Nat.lt_of_not_le hcount, hpaid]

theorem afterSlots_budget (hfits : dialect.slotBytes * count ≤ maxAllocation) :
    (Heap.budget b).afterSlots dialect count = .budget
      (if slotCost dialect count ≤ b.remaining then
        { b with remaining := b.remaining - slotCost dialect count }
      else { b with failures := b.failures + 1 }) := by
  rw [afterSlots, slotCost, request_slots hfits]
  by_cases hcount : count ≤ inlineSlots
  · simp [hcount, Nat.not_lt_of_le hcount]
  · rw [if_neg hcount, if_pos (Nat.lt_of_not_le hcount)]
    split <;> rfl

/-! ## A text from a budget -/

variable {length : ℕ}

theorem grantsText_budget :
    (Heap.budget b).GrantsText length ↔ saturate length + 1 ≤ min b.remaining maxAllocation := by
  have hroom : maxAllocation < maxLength := by decide
  rw [GrantsText, request_budget Nat.one_pos, Nat.le_min]
  by_cases hlength : length < maxLength
  · rw [arrayBytes_text hlength, saturate_of_le (Nat.le_of_lt hlength)]
    by_cases hfits : length + 1 ≤ maxAllocation <;>
      by_cases hpaid : length + 1 ≤ b.remaining <;> simp [hlength, hfits, hpaid]
  · have hshown : ¬ saturate length + 1 ≤ maxAllocation := by
      rw [saturate]
      omega
    simp [hlength, hshown]

theorem afterText_budget :
    (Heap.budget b).afterText length = .budget
      (if saturate length + 1 ≤ min b.remaining maxAllocation then
        { b with remaining := b.remaining - (saturate length + 1) }
      else if saturate length + 1 ≤ maxLength ∧ b.remaining < saturate length + 1 then
        { b with failures := b.failures + 1 }
      else b) := by
  have hroom : maxAllocation < maxLength := by decide
  rw [afterText]
  by_cases hlength : length < maxLength
  · rw [if_pos hlength, request_budget Nat.one_pos, arrayBytes_text hlength,
      saturate_of_le (Nat.le_of_lt hlength)]
    have hmin : length + 1 ≤ maxAllocation ∧ length + 1 ≤ b.remaining ↔
        length + 1 ≤ min b.remaining maxAllocation := by omega
    have hcounted : length + 1 ≤ maxLength := hlength
    simp only [hmin, hcounted, true_and]
    split <;> rfl
  · have hshown : saturate length = maxLength := by
      rw [saturate]
      omega
    have hlarge : ¬ maxLength + 1 ≤ min b.remaining maxAllocation := by omega
    rw [if_neg hlength, hshown, if_neg hlarge, if_neg (fun h => Nat.not_succ_le_self _ h.1)]

end Heap

/-- **Allocating on a budget.** A call pays for its slots if it can, and otherwise counts a failure
and goes on with the first arguments. The call succeeds exactly when what then remains pays for its
output and the NUL, and when these fit one allocation. A success costs just that and leaves the
errors alone. A failure costs nothing more. It is counted, unless the text was not asked for or
could have been paid, and the error saved last is pending again. -/
theorem formatAllocate_on_budget (dialect : Dialect) (b : Budget) (errors : ErrorState)
    (format : Bytes) (arguments : List Argument) (hformat : format.length < 2 ^ 56) :
    let count := countArguments dialect format
    let slots := slotCost dialect count
    let seen := if slots ≤ b.remaining then arguments else arguments.take inlineSlots
    let output := (formatOutput dialect .system format seen).1.toBytes
    let length := saturate output.length
    let rest : Budget :=
      if slots ≤ b.remaining then { b with remaining := b.remaining - slots }
      else { b with failures := b.failures + 1 }
    Heap.system.GrantsSlots dialect count ∧
    formatAllocate dialect (.budget b) errors format arguments =
      if length + 1 ≤ min rest.remaining maxAllocation then
        { result := .ok output
          heap := .budget { rest with remaining := rest.remaining - (length + 1) }
          errors }
      else
        { result := .error .outOfMemory
          heap := .budget
            (if length + 1 ≤ maxLength ∧ rest.remaining < length + 1 then
              { rest with failures := rest.failures + 1 }
            else rest)
          errors := { pending := errors.saved.headD none, saved := errors.saved.tail } } := by
  intro count slots seen output length rest
  have hfits := slotBytes_mul_countArguments_le dialect hformat
  have hsystem : Heap.system.GrantsSlots dialect count := by
    refine .inr ?_
    rw [Heap.request_system dialect.slotBytes_pos]
    apply decide_eq_true
    rwa [arrayBytes_le_iff, Nat.mul_comm]
  refine ⟨hsystem, ?_⟩
  have hseen : (Heap.budget b).allowed dialect count arguments = seen := by
    simp only [Heap.allowed, Heap.grantsSlots_budget hfits, seen, slots, count]
  have houtput : (formatOutput dialect (.budget b) format arguments).1.toBytes = output := by
    rw [toBytes_formatOutput_system, hseen]
  have hrest : (formatOutput dialect (.budget b) format arguments).2 = .budget rest := by
    rw [Heap.formatOutput_snd, Heap.afterSlots_budget hfits]
  rw [formatAllocate_eq houtput hrest, Heap.afterText_budget, ErrorState.pop_snd]
  have hroom : (Heap.budget rest).GrantsText output.length ↔
      length + 1 ≤ min rest.remaining maxAllocation := Heap.grantsText_budget
  by_cases hgranted : length + 1 ≤ min rest.remaining maxAllocation
  · rw [if_pos (hroom.mpr hgranted), if_pos hgranted, if_pos hgranted]
  · rw [if_neg (hroom.not.mpr hgranted), if_neg hgranted, if_neg hgranted]

theorem formatAllocate_on_budget_starved :
    let format := (List.replicate 33 (textBytes "%d")).flatten
    let arguments := List.replicate 33 (Argument.int 7)
    let errors : ErrorState := { pending := some .outOfRange, saved := [some .badNumber] }
    format.length < 2 ^ 56 ∧
    formatAllocate .plain (.budget { remaining := 1055 }) errors format arguments =
      { result := .ok (List.replicate 32 (ascii '7'))
        heap := .budget { remaining := 1022, failures := 1 }
        errors } ∧
    formatAllocate .plain (.budget { remaining := 1089 }) errors format arguments =
      { result := .error .outOfMemory
        heap := .budget { remaining := 33, failures := 1 }
        errors := { pending := some .badNumber, saved := [] } } := by
  intro format arguments errors
  have hformat : format.length < 2 ^ 56 := by decide +kernel
  have hcall := fun b => (formatAllocate_on_budget .plain b errors format arguments hformat).2
  refine ⟨hformat, ?_, ?_⟩
  · rw [hcall, if_pos (by decide +kernel), Allocated.mk.injEq, Except.ok.injEq]
    decide +kernel
  · rw [hcall, if_neg (by decide +kernel), Allocated.mk.injEq]
    exact ⟨rfl, by decide +kernel, rfl⟩

end BoundedFormat
