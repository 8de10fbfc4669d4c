import BoundedFormat.Format
import Mathlib.Data.Nat.Notation

/-!
# What a heap grants

A request is granted when what remains of a budget pays for it, when the array that it is for may
become so large, and when the allocator, if it is needed, is willing. A call makes up to two
requests, both for new arrays: for its slots, if they are more than those at hand, and for its text
with the NUL, if the text is to be allocated and its length can be counted. `afterSlots` and
`afterText` are the heap behind either place, whether it was asked there or not.
-/

namespace BoundedFormat

theorem arrayBytes_of_le {count elementBytes : ℕ} (h : count * elementBytes ≤ maxLength) :
    arrayBytes count elementBytes = count * elementBytes :=
  saturate_of_le h

theorem arrayBytes_mono {m n : ℕ} (h : m ≤ n) (elementBytes : ℕ) :
    arrayBytes m elementBytes ≤ arrayBytes n elementBytes := by
  have hproduct := Nat.mul_le_mul_right elementBytes h
  simp only [arrayBytes, saturate]
  omega

/-- A size that an allocation can have is shown as it is. -/
theorem arrayBytes_le_iff (count elementBytes : ℕ) :
    arrayBytes count elementBytes ≤ maxAllocation ↔ count * elementBytes ≤ maxAllocation := by
  have hroom : maxAllocation < maxLength := by decide
  rw [arrayBytes, saturate]
  omega

theorem Dialect.slotBytes_pos (dialect : Dialect) : 0 < dialect.slotBytes := by
  cases dialect <;> decide

/-! ## One request -/

/-- A new array may have any size that an allocation can have. -/
theorem Growing.fits_new {elementBytes : ℕ} (hbytes : 0 < elementBytes) (count : ℕ) :
    ({} : Growing).fits count elementBytes =
      decide (arrayBytes count elementBytes ≤ maxAllocation) := by
  have hroom : maxAllocation ≤ maxLength := by decide
  have hcount := Nat.le_mul_of_pos_right count hbytes
  rw [fits, Nat.zero_add, ← Bool.decide_and, decide_eq_decide, arrayBytes_le_iff]
  omega

/-- What is asked for is no larger than the array that it becomes a part of. -/
theorem Growing.le_of_fits {array : Growing} {count elementBytes : ℕ}
    (h : array.fits count elementBytes = true) :
    arrayBytes count elementBytes ≤ maxAllocation := by
  rw [fits, Bool.and_eq_true, decide_eq_true_eq, decide_eq_true_eq] at h
  rw [arrayBytes_le_iff]
  exact Nat.le_trans (Nat.mul_le_mul_right _ (Nat.le_add_left ..)) h.2

namespace Allocator

/-- The allocator gives what is asked for next. -/
def willing (allocator : Allocator) : Bool := allocator.answer.1

theorem grow_fst (allocator : Allocator) (array : Growing) (count elementBytes : ℕ) :
    (allocator.grow array count elementBytes).1 =
      (array.fits count elementBytes &&
        (array.hasRoom count elementBytes || allocator.willing)) := by
  rw [grow, willing]
  cases array.fits count elementBytes <;> cases array.hasRoom count elementBytes <;> rfl

theorem grow_ample (array : Growing) (count elementBytes : ℕ) :
    ample.grow array count elementBytes = (array.fits count elementBytes, ample) := by
  rw [grow]
  cases array.fits count elementBytes <;> cases array.hasRoom count elementBytes <;> rfl

/-- An allocator that gives some elements of a new array would give fewer. -/
theorem grow_mono {allocator : Allocator} {m n elementBytes : ℕ} (hle : m ≤ n)
    (h : (allocator.grow {} n elementBytes).1 = true) :
    (allocator.grow {} m elementBytes).1 = true := by
  have hproduct := Nat.mul_le_mul_right elementBytes hle
  simp only [grow_fst, Growing.fits, Growing.hasRoom, Nat.zero_add, Bool.and_eq_true,
    Bool.or_eq_true, decide_eq_true_eq, Nat.le_zero] at h ⊢
  refine ⟨⟨Nat.le_trans hle h.1.1, Nat.le_trans hproduct h.1.2⟩, h.2.imp_left ?_⟩
  intro hroom
  refine hroom.imp_right ?_
  omega

end Allocator

namespace Heap

/-- A request is granted when the budget, if there is one, pays for it and the allocator gives it. -/
theorem request_fst_iff (heap : Heap) (count elementBytes : ℕ) (array : Growing) :
    (heap.request count elementBytes array).1 = true ↔
      (heap.allocator.grow array count elementBytes).1 = true ∧
        ∀ b ∈ heap.budget?, arrayBytes count elementBytes ≤ b.remaining := by
  rcases heap with ⟨allocator, _ | b⟩
  · simp [request]
  · rw [request]
    by_cases hpaid : b.remaining < arrayBytes count elementBytes
    · simp [hpaid, Nat.not_le_of_lt hpaid]
    · rcases allocator.grow array count elementBytes with ⟨_ | _, rest⟩ <;>
        simp [hpaid, Nat.le_of_not_lt hpaid]

/-- What is granted can be allocated. -/
theorem arrayBytes_le_of_request {heap : Heap} {count elementBytes : ℕ} {array : Growing}
    (h : (heap.request count elementBytes array).1 = true) :
    arrayBytes count elementBytes ≤ maxAllocation := by
  have hgrow := ((heap.request_fst_iff count elementBytes array).mp h).1
  rw [Allocator.grow_fst, Bool.and_eq_true] at hgrow
  exact Growing.le_of_fits hgrow.1

/-- A request on a budget: refused and counted, paid, or refused behind the budget and forgotten. -/
theorem request_of_budget? {heap : Heap} {b : Budget} (hbudget : heap.budget? = some b)
    (count elementBytes : ℕ) (array : Growing) :
    let grown := heap.allocator.grow array count elementBytes
    heap.request count elementBytes array =
      if b.remaining < arrayBytes count elementBytes then
        (false, { heap with budget? := some { b with failures := b.failures + 1 } })
      else if grown.1 then
        (true, { allocator := grown.2
                 budget? := some { b with
                  remaining := b.remaining - arrayBytes count elementBytes } })
      else (false, { allocator := grown.2, budget? := some b }) := by
  intro grown
  rw [request, hbudget]
  simp only [grown]
  rcases heap.allocator.grow array count elementBytes with ⟨_ | _, rest⟩ <;> rfl

theorem request_system {elementBytes : ℕ} (hbytes : 0 < elementBytes) (count : ℕ) :
    Heap.system.request count elementBytes =
      (decide (arrayBytes count elementBytes ≤ maxAllocation), .system) := by
  rw [request, system, Allocator.grow_ample, Growing.fits_new hbytes]

/-- A budget pays what it grants. What it refuses it counts, unless it could have paid. -/
theorem request_budget {elementBytes : ℕ} (hbytes : 0 < elementBytes) (b : Budget) (count : ℕ) :
    (Heap.budget b).request count elementBytes =
      if arrayBytes count elementBytes ≤ maxAllocation ∧
          arrayBytes count elementBytes ≤ b.remaining then
        (true, .budget { b with remaining := b.remaining - arrayBytes count elementBytes })
      else
        (false, .budget (if b.remaining < arrayBytes count elementBytes
          then { b with failures := b.failures + 1 } else b)) := by
  rw [request_of_budget? rfl, budget, Allocator.grow_ample, Growing.fits_new hbytes]
  by_cases hpaid : b.remaining < arrayBytes count elementBytes
  · simp [hpaid, Nat.not_le_of_lt hpaid, budget]
  · by_cases hlarge : arrayBytes count elementBytes ≤ maxAllocation
    · simp [hpaid, hlarge, Nat.le_of_not_lt hpaid, budget]
    · simp [hpaid, hlarge, budget]

/-! ## The slots of a call -/

/-- The heap after so many slots were asked for. Slots at hand are not asked for. -/
def afterSlots (heap : Heap) (dialect : Dialect) (count : ℕ) : Heap :=
  if count ≤ ArgumentList.inlineSlots then heap else (heap.request count dialect.slotBytes).2

theorem withCount_snd (dialect : Dialect) (count : ℕ) (heap : Heap) :
    (ArgumentList.withCount dialect count heap).2 = heap.afterSlots dialect count := by
  rw [ArgumentList.withCount, afterSlots]
  by_cases hcount : count ≤ ArgumentList.inlineSlots
  · rw [if_pos hcount, if_pos hcount]
  · rw [if_neg hcount, if_neg hcount]
    rcases heap.request count dialect.slotBytes with ⟨_ | _, heap'⟩ <;> rfl

theorem formatOutput_snd (dialect : Dialect) (heap : Heap) (format : Bytes)
    (arguments : List Argument) :
    (formatOutput dialect heap format arguments).2 =
      heap.afterSlots dialect (countArguments dialect format) :=
  withCount_snd dialect (countArguments dialect format) heap

@[simp] theorem afterSlots_system (dialect : Dialect) (count : ℕ) :
    Heap.system.afterSlots dialect count = .system := by
  rw [afterSlots, request_system dialect.slotBytes_pos, ite_self]

/-! ## Room for a text -/

/-- The heap has room for a text of a length and its NUL. -/
def GrantsText (heap : Heap) (length : ℕ) : Prop :=
  length < maxLength ∧ (heap.request (length + 1) 1).1 = true

instance (heap : Heap) (length : ℕ) : Decidable (heap.GrantsText length) :=
  inferInstanceAs (Decidable (_ ∧ _))

/-- The heap after room for a text was asked for. A length that no counter shows is not asked
for. -/
def afterText (heap : Heap) (length : ℕ) : Heap :=
  if length < maxLength then (heap.request (length + 1) 1).2 else heap

/-- Room is asked for what a counter shows of a length. -/
theorem requestText_saturate (heap : Heap) (length : ℕ) :
    requestText heap (saturate length) =
      (if heap.GrantsText length then some (List.replicate (length + 1) 0) else none,
        heap.afterText length) := by
  rw [requestText, afterText, allocate]
  by_cases hlength : length < maxLength
  · rw [saturate_of_le (Nat.le_of_lt hlength), if_pos hlength, if_pos hlength]
    rcases hrequest : heap.request (length + 1) 1 with ⟨_ | _, heap'⟩ <;>
      simp [GrantsText, hlength, hrequest]
  · have hshown : ¬ saturate length < maxLength := by
      rw [saturate]
      omega
    simp [GrantsText, hlength, hshown]

theorem arrayBytes_text {length : ℕ} (h : length < maxLength) :
    arrayBytes (length + 1) 1 = length + 1 := by
  rw [arrayBytes_of_le] <;> omega

theorem grantsText_system (length : ℕ) :
    Heap.system.GrantsText length ↔ length + 1 ≤ maxAllocation := by
  have hroom : maxAllocation < maxLength := by decide
  rw [GrantsText, request_system Nat.one_pos, decide_eq_true_eq]
  constructor
  · rintro ⟨hlength, hfits⟩
    rwa [arrayBytes_text hlength] at hfits
  · intro hfits
    have hlength : length < maxLength := by omega
    rw [arrayBytes_text hlength]
    exact ⟨hlength, hfits⟩

/-! ## What requests cost -/

/-- What a request takes from its heap: the size of what it asks for, if that is granted. -/
def charge (heap : Heap) (count elementBytes : ℕ) : ℕ :=
  if (heap.request count elementBytes).1 then arrayBytes count elementBytes else 0

/-- What a call takes for so many slots. -/
def slotCharge (heap : Heap) (dialect : Dialect) (count : ℕ) : ℕ :=
  if count ≤ ArgumentList.inlineSlots then 0 else heap.charge count dialect.slotBytes

/-- What a call takes for a text of a length. -/
def textCharge (heap : Heap) (length : ℕ) : ℕ :=
  if length < maxLength then heap.charge (length + 1) 1 else 0

/-- A budget became another by paying an amount. -/
def Pays (heap : Heap) (amount : ℕ) (rest : Heap) : Prop :=
  ∀ b, heap = .budget b → ∃ b', rest = .budget b' ∧ b'.remaining + amount = b.remaining

theorem Pays.nothing (heap : Heap) : heap.Pays 0 heap := fun b h => ⟨b, h, rfl⟩

theorem Pays.trans {heap middle rest : Heap} {first second : ℕ} (hfirst : heap.Pays first middle)
    (hsecond : middle.Pays second rest) : heap.Pays (first + second) rest := by
  intro b hb
  obtain ⟨b', hb', hpaid⟩ := hfirst b hb
  obtain ⟨b'', hb'', hpaid'⟩ := hsecond b' hb'
  exact ⟨b'', hb'', by omega⟩

theorem request_pays (heap : Heap) (count elementBytes : ℕ) :
    heap.Pays (heap.charge count elementBytes) (heap.request count elementBytes).2 := by
  rintro b rfl
  rw [charge, request_of_budget? rfl, budget, Allocator.grow_ample]
  by_cases hpaid : b.remaining < arrayBytes count elementBytes
  · simp only [if_pos hpaid]
    exact ⟨_, rfl, rfl⟩
  · simp only [if_neg hpaid]
    by_cases hfits : ({} : Growing).fits count elementBytes
    · simp only [if_pos hfits, if_true]
      exact ⟨_, rfl, Nat.sub_add_cancel (Nat.le_of_not_lt hpaid)⟩
    · simp only [if_neg hfits]
      exact ⟨_, rfl, rfl⟩

theorem afterSlots_pays (heap : Heap) (dialect : Dialect) (count : ℕ) :
    heap.Pays (heap.slotCharge dialect count) (heap.afterSlots dialect count) := by
  rw [slotCharge, afterSlots]
  split
  · exact .nothing heap
  · exact heap.request_pays count dialect.slotBytes

theorem afterText_pays (heap : Heap) (length : ℕ) :
    heap.Pays (heap.textCharge length) (heap.afterText length) := by
  rw [textCharge, afterText]
  split
  · exact heap.request_pays (length + 1) 1
  · exact .nothing heap

end Heap
end BoundedFormat
