import BoundedFormat.Proofs.Heap
import BoundedFormat.Proofs.Spelling
import Mathlib.Data.List.Induction

/-!
# Which slot a directive reads, and what it holds

The directives that read an argument are numbered in order. Each names the slot of its own number
or, with a position, the slot before that position; position zero names none. The scan types a slot
by the last directive that names it, and loads the arguments slot by slot. `get?_collect` says what
every slot of a collected list holds. How many slots there are depends on the number of directives,
not on the positions.
-/

namespace BoundedFormat

/-! ## Names of slots -/

/-- The directive with the number `ordinal` names the slot `index`. -/
def FormatSpec.Names (spec : FormatSpec) (ordinal index : ℕ) : Prop :=
  spec.position = none ∧ index = ordinal ∨ spec.position = some (index + 1)

instance (spec : FormatSpec) (ordinal index : ℕ) : Decidable (spec.Names ordinal index) :=
  inferInstanceAs (Decidable (_ ∨ _))

theorem FormatSpec.slotIndex?_eq_some_iff (spec : FormatSpec) (ordinal index : ℕ) :
    spec.slotIndex? ordinal = some index ↔ spec.Names ordinal index := by
  rw [slotIndex?, Names]
  rcases spec.position with _ | _ | n
  · simp [eq_comm]
  · simp
  · simp

/-- No directive of a format that reads an argument has a position. -/
def Sequential (dialect : Dialect) (format : Bytes) : Prop :=
  ∀ spec ∈ argumentSpecs dialect format, spec.position = none

instance (dialect : Dialect) (format : Bytes) : Decidable (Sequential dialect format) :=
  inferInstanceAs (Decidable (∀ spec ∈ argumentSpecs dialect format, _ = _))

theorem FormatSpec.names_self {spec : FormatSpec} (h : spec.position = none) (ordinal : ℕ) :
    spec.Names ordinal ordinal := .inl ⟨h, rfl⟩

/-- A directive names one slot at most. -/
theorem FormatSpec.Names.unique {spec : FormatSpec} {ordinal i j : ℕ} (hi : spec.Names ordinal i)
    (hj : spec.Names ordinal j) : i = j := by
  rw [← slotIndex?_eq_some_iff] at hi hj
  exact Option.some.inj (hi.symm.trans hj)

theorem isSome_slotType?_of_mem {dialect : Dialect} {format : Bytes} {spec : FormatSpec}
    (h : spec ∈ argumentSpecs dialect format) : spec.slotType?.isSome := by
  rw [argumentSpecs, List.mem_filterMap] at h
  obtain ⟨piece, -, hpiece⟩ := h
  rw [FormatSpec.isSome_slotType?]
  exact (Piece.argumentSpec?_eq_some_iff.mp hpiece).2

/-! ## The last directive to name a slot -/

/-- The directives that name a slot, in order. -/
def namers (specs : List FormatSpec) (index : ℕ) : List FormatSpec :=
  (specs.zipIdx.filter fun (spec, ordinal) => spec.Names ordinal index).map (·.1)

/-- The type of a slot: what the last directive to name it asks for. -/
def lastType (specs : List FormatSpec) (index : ℕ) : SlotType :=
  ((namers specs index).getLast?.bind (·.slotType?)).getD .i32

theorem mem_namers {specs : List FormatSpec} {index : ℕ} {spec : FormatSpec} :
    spec ∈ namers specs index ↔ ∃ k, specs[k]? = some spec ∧ spec.Names k index := by
  rw [namers, List.mem_map]
  constructor
  · rintro ⟨⟨named, k⟩, hmem, rfl⟩
    rw [List.mem_filter, List.mem_zipIdx_iff_getElem?, decide_eq_true_eq] at hmem
    exact ⟨k, hmem⟩
  · rintro ⟨k, hk, hnames⟩
    refine ⟨(spec, k), ?_, rfl⟩
    rw [List.mem_filter, List.mem_zipIdx_iff_getElem?, decide_eq_true_eq]
    exact ⟨hk, hnames⟩

/-- Directives that agree on the type of a slot give it that type, whichever comes last. -/
theorem lastType_eq_of_agree {specs : List FormatSpec} {index : ℕ} {type : SlotType}
    {k : ℕ} {spec : FormatSpec} (hk : specs[k]? = some spec) (hnames : spec.Names k index)
    (hagree : ∀ spec ∈ namers specs index, spec.slotType? = some type) :
    lastType specs index = type := by
  have hmem : spec ∈ namers specs index := mem_namers.mpr ⟨k, hk, hnames⟩
  obtain ⟨last, hlast⟩ : ∃ last, (namers specs index).getLast? = some last := by
    rw [← Option.isSome_iff_exists, List.getLast?_isSome]
    exact List.ne_nil_of_mem hmem
  rw [lastType, hlast, Option.bind_some, hagree last (List.mem_of_getLast? hlast)]
  rfl

/-- Directives with the same index ask for the same type. -/
def TypesAgree (specs : List FormatSpec) (index : ℕ → ℕ) : Prop :=
  ∀ j < specs.length, ∀ k < specs.length, index j = index k →
    specs[j]?.bind (·.slotType?) = specs[k]?.bind (·.slotType?)

instance (specs : List FormatSpec) (index : ℕ → ℕ) : Decidable (TypesAgree specs index) :=
  inferInstanceAs (Decidable (∀ j < specs.length, ∀ k < specs.length, _ → _))

theorem TypesAgree.slotType?_eq {specs : List FormatSpec} {index : ℕ → ℕ}
    (H : TypesAgree specs index) {j k : ℕ} {other spec : FormatSpec}
    (hother : specs[j]? = some other) (hspec : specs[k]? = some spec) (hjk : index j = index k) :
    other.slotType? = spec.slotType? := by
  have htypes := H j (List.getElem?_eq_some_iff.mp hother).1 k
    (List.getElem?_eq_some_iff.mp hspec).1 hjk
  rwa [hother, hspec] at htypes

/-- Directives that all have indices of their own cannot disagree. -/
theorem TypesAgree.of_injOn {specs : List FormatSpec} {index : ℕ → ℕ}
    (h : ∀ j < specs.length, ∀ k < specs.length, index j = index k → j = k) :
    TypesAgree specs index := by
  intro j hj k hk hjk
  rw [h j hj k hk hjk]

/-! ## Typing -/

namespace ArgumentList

/-- All slots in use are there. -/
def Fits (list : ArgumentList) : Prop := list.size ≤ list.storage.length

/-- Two lists have as many slots in use, as many at all, and in the same place. Slots that are not
in use are the same. -/
structure SameRoom (list next : ArgumentList) : Prop where
  size : next.size = list.size
  placement : next.placement = list.placement
  length : next.storage.length = list.storage.length
  beyond : ∀ index, list.size ≤ index → next.storage[index]? = list.storage[index]?

theorem SameRoom.refl (list : ArgumentList) : list.SameRoom list :=
  ⟨rfl, rfl, rfl, fun _ _ => rfl⟩

theorem SameRoom.trans {list middle last : ArgumentList} (hfirst : list.SameRoom middle)
    (hsecond : middle.SameRoom last) : list.SameRoom last where
  size := hsecond.size.trans hfirst.size
  placement := hsecond.placement.trans hfirst.placement
  length := hsecond.length.trans hfirst.length
  beyond index h :=
    (hsecond.beyond index (by rwa [hfirst.size])).trans (hfirst.beyond index h)

theorem sameRoom_setType (list : ArgumentList) (use : ℕ × SlotType) :
    list.SameRoom (list.setType use) := by
  rw [setType]
  by_cases hused : use.1 < list.size
  · rw [if_pos hused]
    refine ⟨rfl, rfl, List.length_modify .., ?_⟩
    intro index h
    rw [List.getElem?_modify_ne _ _ (by omega)]
  · rw [if_neg hused]
    exact .refl list

theorem get?_setType (list : ArgumentList) (use : ℕ × SlotType) (index : ℕ) :
    (list.setType use).get? index =
      (list.get? index).map fun slot =>
        if index = use.1 then { slot with type := use.2 } else slot := by
  rw [get?, get?, (sameRoom_setType list use).size]
  by_cases hi : index < list.size
  · rw [if_pos hi, if_pos hi, setType]
    by_cases hu : use.1 < list.size
    · rw [if_pos hu, List.getElem?_modify]
      by_cases heq : index = use.1 <;> simp [heq, eq_comm]
    · have hne : index ≠ use.1 := by omega
      simp [hu, hne]
  · rw [if_neg hi, if_neg hi, Option.map_none]

/-- What a numbered directive asks of the slots. -/
def slotUse? (numbered : FormatSpec × ℕ) : Option (ℕ × SlotType) := do
  let index ← numbered.1.slotIndex? numbered.2
  let type ← numbered.1.slotType?
  return (index, type)

theorem slotUse?_eq_some_iff {spec : FormatSpec} {ordinal index : ℕ} {type : SlotType}
    (htype : spec.slotType? = some type) :
    slotUse? (spec, ordinal) = some (index, type) ↔ spec.Names ordinal index := by
  rw [← FormatSpec.slotIndex?_eq_some_iff]
  cases h : spec.slotIndex? ordinal <;> simp [slotUse?, h, htype]

theorem slotUse?_eq_none {spec : FormatSpec} {ordinal : ℕ}
    (h : spec.slotIndex? ordinal = none) : slotUse? (spec, ordinal) = none := by
  simp [slotUse?, h]

/-- The cursor of the scan stops at the directives that read an argument, and numbers them as they
come: a directive asks for a type exactly if it reads one. -/
theorem slotUsesFrom_eq (cursor : ℕ) (pieces : List Piece) :
    slotUsesFrom cursor pieces =
      ((pieces.filterMap Piece.argumentSpec?).zipIdx cursor).filterMap slotUse? := by
  induction pieces generalizing cursor with
  | nil => rfl
  | cons piece rest ih =>
      cases piece with
      | literal raw | incomplete raw => exact ih cursor
      | directive spec raw =>
          have htakes := spec.isSome_slotType?
          rw [slotUsesFrom]
          cases htype : spec.slotType? with
          | none =>
              rw [htype, Option.isSome_none] at htakes
              have hspec : (Piece.directive spec raw).argumentSpec? = none :=
                if_neg (by rw [← htakes]; decide)
              rw [List.filterMap_cons_none hspec]
              exact ih cursor
          | some type =>
              rw [htype, Option.isSome_some] at htakes
              have hspec : (Piece.directive spec raw).argumentSpec? = some spec :=
                if_pos htakes.symm
              rw [List.filterMap_cons_some hspec, List.zipIdx_cons]
              cases hindex : spec.slotIndex? cursor with
              | none =>
                  rw [List.filterMap_cons_none (slotUse?_eq_none hindex)]
                  exact ih (cursor + 1)
              | some index =>
                  have huse : slotUse? (spec, cursor) = some (index, type) := by
                    simp [slotUse?, hindex, htype]
                  rw [List.filterMap_cons_some huse]
                  exact congrArg (List.cons _) (ih (cursor + 1))

theorem slotUses_eq (dialect : Dialect) (format : Bytes) :
    slotUses dialect format = (argumentSpecs dialect format).zipIdx.filterMap slotUse? :=
  slotUsesFrom_eq 0 (pieces dialect format)

/-- Typing in order leaves a slot with what the last directive to name it asks for. -/
theorem get?_foldl_setType (numbered : List (FormatSpec × ℕ))
    (htyped : ∀ use ∈ numbered, use.1.slotType?.isSome) (list : ArgumentList) (index : ℕ) :
    ((numbered.filterMap slotUse?).foldl setType list).get? index =
      (list.get? index).map fun slot => { slot with
        type := (((numbered.filter fun (spec, k) => spec.Names k index).map (·.1)).getLast?.bind
          (·.slotType?)).getD slot.type } := by
  induction numbered using List.reverseRecOn with
  | nil => simp
  | append_singleton numbered last ih =>
      obtain ⟨spec, ordinal⟩ := last
      have htyped' : ∀ use ∈ numbered, use.1.slotType?.isSome := by
        intro use h
        exact htyped use (List.mem_append_left _ h)
      obtain ⟨type, htype⟩ := Option.isSome_iff_exists.mp
        (htyped (spec, ordinal) (List.mem_append_right _ (List.mem_singleton_self _)))
      rw [List.filterMap_append, List.foldl_append, List.filter_append, List.map_append]
      by_cases hnames : spec.Names ordinal index
      · rw [List.filterMap_cons_some ((slotUse?_eq_some_iff htype).mpr hnames), List.foldl_cons,
          List.filterMap_nil, List.foldl_nil, get?_setType, ih htyped']
        cases list.get? index <;> simp [hnames, htype]
      · have hother : ((([(spec, ordinal)].filterMap slotUse?).foldl setType
            ((numbered.filterMap slotUse?).foldl setType list))).get? index =
              ((numbered.filterMap slotUse?).foldl setType list).get? index := by
          cases h : spec.slotIndex? ordinal with
          | none => rw [List.filterMap_cons_none (slotUse?_eq_none h)]; rfl
          | some other =>
              have huse := (FormatSpec.slotIndex?_eq_some_iff spec ordinal other).mp h
              have hne : index ≠ other := by
                intro heq
                exact hnames (heq ▸ huse)
              rw [List.filterMap_cons_some ((slotUse?_eq_some_iff htype).mpr huse), List.foldl_cons,
                List.filterMap_nil, List.foldl_nil, get?_setType]
              simp [hne]
        rw [hother, ih htyped']
        simp [hnames]

theorem sameRoom_assignTypes (dialect : Dialect) (format : Bytes) (list : ArgumentList) :
    list.SameRoom (list.assignTypes dialect format) := by
  rw [assignTypes]
  exact List.foldlRecOn (motive := fun typed => list.SameRoom typed) _ setType (.refl list)
    fun typed h use _ => h.trans (sameRoom_setType typed use)

theorem size_assignTypes (dialect : Dialect) (format : Bytes) (list : ArgumentList) :
    (list.assignTypes dialect format).size = list.size :=
  (sameRoom_assignTypes dialect format list).size

theorem fits_assignTypes (dialect : Dialect) (format : Bytes) {list : ArgumentList}
    (h : list.Fits) : (list.assignTypes dialect format).Fits := by
  have hroom := sameRoom_assignTypes dialect format list
  rwa [Fits, hroom.size, hroom.length]

theorem get?_assignTypes (dialect : Dialect) (format : Bytes) (list : ArgumentList) (index : ℕ) :
    (list.assignTypes dialect format).get? index =
      (list.get? index).map fun slot => { slot with
        type := ((namers (argumentSpecs dialect format) index).getLast?.bind
          (·.slotType?)).getD slot.type } := by
  rw [assignTypes, slotUses_eq]
  apply get?_foldl_setType
  intro use huse
  apply isSome_slotType?_of_mem
  exact List.fst_mem_of_mem_zipIdx huse

/-! ## Room and loading -/

end ArgumentList

/-- The slots of so many directives are granted: they are at hand, or the heap has them. -/
def Heap.GrantsSlots (heap : Heap) (dialect : Dialect) (count : ℕ) : Prop :=
  count ≤ ArgumentList.inlineSlots ∨ (heap.request count dialect.slotBytes).1 = true

instance (heap : Heap) (dialect : Dialect) (count : ℕ) :
    Decidable (heap.GrantsSlots dialect count) :=
  inferInstanceAs (Decidable (_ ∨ _))

/-- A heap grants no more elements than an allocation holds. -/
theorem Heap.mul_le_of_request {heap : Heap} {count elementBytes : ℕ}
    (h : (heap.request count elementBytes).1 = true) : count * elementBytes ≤ maxAllocation :=
  (arrayBytes_le_iff count elementBytes).mp (arrayBytes_le_of_request h)

/-- A heap that grants some slots would grant fewer. -/
theorem Heap.GrantsSlots.mono {heap : Heap} {dialect : Dialect} {m n : ℕ}
    (h : heap.GrantsSlots dialect n) (hle : m ≤ n) : heap.GrantsSlots dialect m := by
  rcases h with hinline | hrequest
  · exact .inl (Nat.le_trans hle hinline)
  · have hbytes := arrayBytes_mono hle dialect.slotBytes
    rw [request_fst_iff] at hrequest
    refine .inr ((heap.request_fst_iff m dialect.slotBytes {}).mpr ⟨?_, ?_⟩)
    · exact Allocator.grow_mono hle hrequest.1
    · intro b hb
      exact Nat.le_trans hbytes (hrequest.2 b hb)

theorem Heap.GrantsSlots.le_maxLength {heap : Heap} {dialect : Dialect} {count : ℕ}
    (h : heap.GrantsSlots dialect count) : count ≤ maxLength := by
  rcases h with hinline | hrequest
  · exact Nat.le_trans hinline (by decide)
  · have hslot : 0 < dialect.slotBytes := by cases dialect <;> decide
    calc count ≤ count * dialect.slotBytes := Nat.le_mul_of_pos_right _ hslot
      _ ≤ maxAllocation := mul_le_of_request hrequest
      _ ≤ maxLength := by decide

/-- How many slots there are for so many directives. -/
def Heap.slotRoom (heap : Heap) (dialect : Dialect) (count : ℕ) : ℕ :=
  if heap.GrantsSlots dialect count then count else ArgumentList.inlineSlots

namespace ArgumentList

theorem get?_replicate {room size : ℕ} (h : size ≤ room) (placement : Placement) (index : ℕ) :
    ({ storage := List.replicate room {}, size, placement } : ArgumentList).get? index =
      if index < size then some {} else none := by
  rw [get?]
  by_cases hi : index < size
  · rw [if_pos hi, if_pos hi, List.getElem?_replicate, if_pos (by omega)]
  · rw [if_neg hi, if_neg hi]

/-- Three lists may come of a number of slots. -/
theorem withCount_fst (dialect : Dialect) (count : ℕ) (heap : Heap) :
    (withCount dialect count heap).1 =
      if count ≤ inlineSlots then
        { storage := List.replicate inlineSlots {}, size := count, placement := .inline }
      else if (heap.request count dialect.slotBytes).1 = true then
        { storage := List.replicate count {}, size := count, placement := .spilled }
      else
        { storage := List.replicate inlineSlots {}, size := inlineSlots
          placement := .truncated } := by
  rw [withCount]
  by_cases hcount : count ≤ inlineSlots
  · rw [if_pos hcount, if_pos hcount]
  · rw [if_neg hcount, if_neg hcount]
    rcases heap.request count dialect.slotBytes with ⟨_ | _, heap'⟩ <;> rfl

/-- An untyped list has the room that there is, and fits it. -/
theorem withCount_spec (dialect : Dialect) (count : ℕ) (heap : Heap) :
    (withCount dialect count heap).1.size = heap.slotRoom dialect count ∧
      (withCount dialect count heap).1.Fits ∧
      ∀ index, (withCount dialect count heap).1.get? index =
        if index < heap.slotRoom dialect count then some {} else none := by
  rw [withCount_fst, Heap.slotRoom]
  by_cases hcount : count ≤ inlineSlots
  · rw [if_pos hcount, if_pos (.inl hcount)]
    exact ⟨rfl, by simpa [Fits] using hcount, get?_replicate hcount _⟩
  · have hgrants : heap.GrantsSlots dialect count ↔
        (heap.request count dialect.slotBytes).1 = true := or_iff_right hcount
    rw [if_neg hcount]
    by_cases hrequest : (heap.request count dialect.slotBytes).1 = true
    · rw [if_pos hrequest, if_pos (hgrants.mpr hrequest)]
      exact ⟨rfl, by simp [Fits], get?_replicate (Nat.le_refl _) _⟩
    · rw [if_neg hrequest, if_neg (hgrants.not.mpr hrequest)]
      exact ⟨rfl, by simp [Fits], get?_replicate (Nat.le_refl _) _⟩

theorem size_extract (list : ArgumentList) (arguments : List Argument) :
    (list.extract arguments).size = min list.size arguments.length := rfl

theorem length_storage_extract {list : ArgumentList} (h : list.Fits)
    (arguments : List Argument) :
    (list.extract arguments).storage.length = list.storage.length := by
  rw [Fits] at h
  simp only [extract, List.length_append, List.length_zipWith, List.length_take, List.length_drop]
  omega

theorem fits_extract {list : ArgumentList} (h : list.Fits) (arguments : List Argument) :
    (list.extract arguments).Fits := by
  rw [Fits, length_storage_extract h, size_extract]
  exact Nat.le_trans (Nat.min_le_left ..) h

/-- Slots past the last argument are not touched. -/
theorem getElem?_storage_extract_of_le {list : ArgumentList} (h : list.Fits)
    (arguments : List Argument) {index : ℕ} (hindex : (list.extract arguments).size ≤ index) :
    (list.extract arguments).storage[index]? = list.storage[index]? := by
  have hloaded : (List.zipWith Slot.load (list.storage.take (min list.size arguments.length))
      arguments).length = (list.extract arguments).size := by
    rw [Fits] at h
    rw [size_extract, List.length_zipWith, List.length_take]
    omega
  rw [extract]
  rw [List.getElem?_append_right (by omega), hloaded, List.getElem?_drop, size_extract]
  rw [size_extract] at hindex
  congr 1
  omega

/-- Loading puts each argument into the slot with its index, and leaves no slot without one. -/
theorem get?_extract {list : ArgumentList} (h : list.Fits) (arguments : List Argument)
    (index : ℕ) :
    (list.extract arguments).get? index =
      (list.get? index).bind fun slot => arguments[index]?.map slot.load := by
  rw [Fits] at h
  by_cases hindex : index < min list.size arguments.length
  · have hslots : index < (list.storage.take (min list.size arguments.length)).length := by
      rw [List.length_take]; omega
    have hget : (list.extract arguments).get? index =
        (List.zipWith Slot.load (list.storage.take (min list.size arguments.length)) arguments ++
          list.storage.drop (min list.size arguments.length))[index]? := if_pos hindex
    rw [hget, List.getElem?_append_left (by rw [List.length_zipWith]; omega),
      List.getElem?_zipWith, List.getElem?_take_of_lt hindex, get?, if_pos (by omega),
      List.getElem?_eq_getElem (by omega : index < list.storage.length),
      List.getElem?_eq_getElem (by omega : index < arguments.length)]
    rfl
  · have hget : (list.extract arguments).get? index = none := if_neg hindex
    rw [hget, get?]
    by_cases hi : index < list.size
    · rw [List.getElem?_eq_none (by omega : arguments.length ≤ index)]
      simp
    · rw [if_neg hi, Option.bind_none]

/-! ## Collecting -/

theorem scan_fst (dialect : Dialect) (format : Bytes) (heap : Heap) :
    (scan dialect format heap).1 =
      (withCount dialect (countArguments dialect format) heap).1.assignTypes dialect format := rfl

theorem collect_fst (dialect : Dialect) (format : Bytes) (arguments : List Argument)
    (heap : Heap) :
    (collect dialect format arguments heap).1 =
      (scan dialect format heap).1.extract arguments := rfl

theorem size_scan (dialect : Dialect) (format : Bytes) (heap : Heap) :
    (scan dialect format heap).1.size =
      heap.slotRoom dialect (countArguments dialect format) := by
  rw [scan_fst, size_assignTypes, (withCount_spec dialect _ heap).1]

theorem fits_scan (dialect : Dialect) (format : Bytes) (heap : Heap) :
    (scan dialect format heap).1.Fits :=
  fits_assignTypes dialect format (withCount_spec dialect (countArguments dialect format) heap).2.1

/-- A slot of a scanned list is empty, and has the type that the last directive to name it asks
for. -/
theorem get?_scan (dialect : Dialect) (format : Bytes) (heap : Heap) (index : ℕ) :
    (scan dialect format heap).1.get? index =
      if index < heap.slotRoom dialect (countArguments dialect format) then
        some { type := lastType (argumentSpecs dialect format) index }
      else none := by
  rw [scan_fst, get?_assignTypes,
    (withCount_spec dialect (countArguments dialect format) heap).2.2]
  split <;> rfl

theorem size_collect (dialect : Dialect) (format : Bytes) (arguments : List Argument)
    (heap : Heap) :
    (collect dialect format arguments heap).1.size =
      min (heap.slotRoom dialect (countArguments dialect format)) arguments.length := by
  rw [collect_fst, size_extract, size_scan]

/-- A slot of a collected list holds its argument, narrowed to the type that the last directive
to name the slot asks for. -/
theorem get?_collect (dialect : Dialect) (format : Bytes) (arguments : List Argument)
    (heap : Heap) (index : ℕ) :
    (collect dialect format arguments heap).1.get? index =
      if index < heap.slotRoom dialect (countArguments dialect format) then
        arguments[index]?.map
          (Slot.load { type := lastType (argumentSpecs dialect format) index })
      else none := by
  rw [collect_fst, get?_extract (fits_scan dialect format heap), get?_scan]
  split <;> rfl

theorem get?_eq_none_iff {list : ArgumentList} (h : list.Fits) (index : ℕ) :
    list.get? index = none ↔ list.size ≤ index := by
  rw [Fits] at h
  rw [get?]
  by_cases hindex : index < list.size
  · rw [if_pos hindex, List.getElem?_eq_none_iff]
    omega
  · rw [if_neg hindex]
    simpa using hindex

theorem fits_collect (dialect : Dialect) (format : Bytes) (arguments : List Argument)
    (heap : Heap) : (collect dialect format arguments heap).1.Fits := by
  rw [collect_fst]
  exact fits_extract (fits_scan dialect format heap) arguments

end ArgumentList

/-- A call spells out what its directives show of the collected slots. -/
theorem toBytes_formatOutput (dialect : Dialect) (heap : Heap) (format : Bytes)
    (arguments : List Argument) :
    (formatOutput dialect heap format arguments).1.toBytes =
      spell (fun ordinal spec => slotBytes spec
        ((ArgumentList.collect dialect format arguments heap).1.read? ordinal spec)) 0
        (pieces dialect format) :=
  toBytes_render dialect format _

/-- The slot that the scan finds for the directive with a number. -/
def resolved? (specs : List FormatSpec) (ordinal : ℕ) : Option ℕ :=
  specs[ordinal]?.bind fun spec => spec.slotIndex? ordinal

end BoundedFormat
