import BoundedFormat.Proofs.Refusal

/-!
# Which arguments a call depends on

A directive reads the argument whose index it resolves to, and no other. Arguments that no directive
reads are loaded into slots all the same, and more arguments make a longer list of slots; the main
statement is that neither can be told from anything that a call gives back. Two calls with the same
arguments at the indices that are read cannot be told apart.
-/

namespace BoundedFormat

/-- Some directive of a format reads the argument with an index. -/
def ReadsArgument (dialect : Dialect) (format : Bytes) (index : ℕ) : Prop :=
  ∃ ordinal < countArguments dialect format,
    resolved? (argumentSpecs dialect format) ordinal = some index

instance (dialect : Dialect) (format : Bytes) (index : ℕ) :
    Decidable (ReadsArgument dialect format index) :=
  inferInstanceAs (Decidable (∃ ordinal < countArguments dialect format, _ = _))

/-- Two lists have the same argument, or both have none, wherever a directive reads one for which
there is a slot. -/
def AgreeWhereRead (dialect : Dialect) (format : Bytes) (first second : List Argument) : Prop :=
  ∀ index < countArguments dialect format, ReadsArgument dialect format index →
    first[index]? = second[index]?

instance (dialect : Dialect) (format : Bytes) (first second : List Argument) :
    Decidable (AgreeWhereRead dialect format first second) :=
  inferInstanceAs (Decidable (∀ index < countArguments dialect format, _ → _))

/-- Nothing that a call gives back tells two lists of arguments apart: not the output, nor its
length, nor a buffer of any size, nor what is allocated, nor what is left of the heap. -/
structure Indistinguishable (dialect : Dialect) (heap : Heap) (format : Bytes)
    (first second : List Argument) : Prop where
  output : (formatOutput dialect heap format first).1.toBytes =
    (formatOutput dialect heap format second).1.toBytes
  length : formatLength dialect heap format first = formatLength dialect heap format second
  stored : ∀ buffer : Bytes,
    formatInto dialect heap buffer format first = formatInto dialect heap buffer format second
  allocated : ∀ errors : ErrorState,
    formatAllocate dialect heap errors format first =
      formatAllocate dialect heap errors format second

variable {dialect : Dialect} {heap : Heap} {format : Bytes} {first second : List Argument}

/-- The bytes of the output decide all that a call gives back. -/
theorem Indistinguishable.of_output
    (h : (formatOutput dialect heap format first).1.toBytes =
      (formatOutput dialect heap format second).1.toBytes) :
    Indistinguishable dialect heap format first second := by
  have hheap : (formatOutput dialect heap format first).2 =
      (formatOutput dialect heap format second).2 := by
    rw [Heap.formatOutput_snd, Heap.formatOutput_snd]
  refine ⟨h, Prod.ext (measure_congr h) hheap, ?_, ?_⟩
  · intro buffer
    exact Prod.ext (store_congr h buffer) hheap
  · intro errors
    rw [formatAllocate_eq h hheap, formatAllocate_eq rfl rfl]

/-- A directive finds the same in its slot, whatever the other slots hold. -/
theorem AgreeWhereRead.read?_eq (h : AgreeWhereRead dialect format first second) {ordinal : ℕ}
    {spec : FormatSpec} (hspec : (argumentSpecs dialect format)[ordinal]? = some spec) :
    (ArgumentList.collect dialect format first heap).1.read? ordinal spec =
      (ArgumentList.collect dialect format second heap).1.read? ordinal spec := by
  rw [ArgumentList.read?, ArgumentList.read?]
  cases hindex : spec.slotIndex? ordinal with
  | none => rfl
  | some index =>
      rw [Option.bind_some, Option.bind_some, ArgumentList.get?_collect,
        ArgumentList.get?_collect]
      by_cases hroom : index < heap.slotRoom dialect (countArguments dialect format)
      · have hresolved : resolved? (argumentSpecs dialect format) ordinal = some index := by
          rw [resolved?, hspec, Option.bind_some, hindex]
        have hordinal := (List.getElem?_eq_some_iff.mp hspec).1
        have hcount := heap.slotRoom_le dialect (countArguments dialect format)
        rw [h index (by omega) ⟨ordinal, hordinal, hresolved⟩]
      · rw [if_neg hroom, if_neg hroom]

theorem AgreeWhereRead.indistinguishable (h : AgreeWhereRead dialect format first second)
    (heap : Heap) : Indistinguishable dialect heap format first second := by
  apply Indistinguishable.of_output
  rw [toBytes_formatOutput, toBytes_formatOutput]
  apply spell_congr
  intro k spec hspec
  rw [Nat.zero_add, h.read?_eq hspec]

/-- **Calls depend on the arguments that are read.** Two lists with the same arguments wherever a
directive reads one give calls that cannot be told apart, though they may differ in length and in
all other arguments. So arguments past the last slot count for nothing, and an argument that no
directive reads may be any. -/
theorem calls_depend_on_read_arguments (dialect : Dialect) (heap : Heap) (format : Bytes) :
    (∀ first second, AgreeWhereRead dialect format first second →
      Indistinguishable dialect heap format first second) ∧
    (∀ arguments, Indistinguishable dialect heap format
      (arguments.take (countArguments dialect format)) arguments) ∧
    ∀ arguments index argument, ¬ ReadsArgument dialect format index →
      Indistinguishable dialect heap format (arguments.set index argument) arguments := by
  refine ⟨fun first second h => h.indistinguishable heap, ?_, ?_⟩
  · intro arguments
    refine AgreeWhereRead.indistinguishable ?_ heap
    intro index hindex _
    rw [List.getElem?_take_of_lt hindex]
  · intro arguments index argument hunread
    refine AgreeWhereRead.indistinguishable ?_ heap
    intro other _ hread
    rw [List.getElem?_set_ne]
    rintro rfl
    exact hunread hread

theorem calls_depend_on_read_arguments_gap :
    let format := textBytes "%3$d|%1$-4s|%1$.1s"
    let first := [Argument.ofText "ab", .int 7, .int (-1)]
    let second := [Argument.ofText "ab", .ofText "no", .int (-1), .ptr 9]
    AgreeWhereRead .plain format first second ∧ ¬ ReadsArgument .plain format 1 ∧
    (formatInto .plain .system (List.replicate 9 1) format second).1 =
      { length := 9, buffer := textBytes "-1|ab  |" ++ [0] } ∧
    (formatOutput .plain .system format (first.set 1 (.str none))).1.toBytes =
      textBytes "-1|ab  |a" := by
  intro format first second
  have hagree : AgreeWhereRead .plain format first second := by decide +kernel
  have hunread : ¬ ReadsArgument .plain format 1 := by decide +kernel
  obtain ⟨hsame, -, hset⟩ := calls_depend_on_read_arguments .plain .system format
  refine ⟨hagree, hunread, ?_, ?_⟩
  · rw [← (hsame first second hagree).stored]
    decide +kernel
  · rw [(hset first 1 (.str none) hunread).output]
    decide +kernel

end BoundedFormat
