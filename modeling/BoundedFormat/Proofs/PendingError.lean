import BoundedFormat.EventLog
import BoundedFormat.Proofs.Agreement

/-!
# The pending error behind calls and events

Callers set, take, save and restore errors, and a call that runs out of memory restores one by
itself. `Reachable` are the error states that come of any of these operations; none has more than
sixteen saved errors. The main statement is that recording an event leaves the saved errors alone,
whatever becomes of the event, and loses the pending one only when there is no room to save it.
-/

namespace BoundedFormat
namespace ErrorState

/-! ## One operation -/

/-- With an error taken back, the one saved last is pending and gone from the stack. -/
theorem pop_snd (errors : ErrorState) :
    errors.pop.2 = { pending := errors.saved.headD none, saved := errors.saved.tail } := by
  rcases errors with ⟨pending, _ | ⟨error, saved⟩⟩ <;> rfl

theorem push_of_lt {errors : ErrorState} (h : errors.depth < maxDepth) :
    errors.push = (true, { pending := none, saved := errors.pending :: errors.saved }) := if_pos h

theorem push_of_not_lt {errors : ErrorState} (h : ¬ errors.depth < maxDepth) :
    errors.push = (false, errors.clear) := if_neg h

theorem depth_push_le {errors : ErrorState} (h : errors.depth ≤ maxDepth) :
    errors.push.2.depth ≤ maxDepth := by
  by_cases hroom : errors.depth < maxDepth
  · rw [push_of_lt hroom]
    exact hroom
  · rw [push_of_not_lt hroom]
    exact h

theorem depth_pop_le (errors : ErrorState) : errors.pop.2.depth ≤ errors.depth := by
  rw [pop_snd, depth, depth, List.length_tail]
  exact Nat.sub_le ..

end ErrorState

/-- An allocation leaves the errors alone or, without memory, takes the one saved last back. -/
theorem errors_formatAllocate (dialect : Dialect) (heap : Heap) (errors : ErrorState)
    (format : Bytes) (arguments : List Argument) :
    (formatAllocate dialect heap errors format arguments).errors = errors ∨
      (formatAllocate dialect heap errors format arguments).errors = errors.pop.2 := by
  rw [formatAllocate_eq rfl rfl]
  split
  · exact .inl rfl
  · exact .inr rfl

namespace EventLog

/-- What was saved for an event is taken back behind it, and nothing else. -/
theorem restore_push (errors : ErrorState) :
    restore errors.push.2 errors.push.1 =
      if errors.depth < ErrorState.maxDepth then errors else errors.clear := by
  by_cases hroom : errors.depth < ErrorState.maxDepth
  · rw [ErrorState.push_of_lt hroom, if_pos hroom]
    rfl
  · rw [ErrorState.push_of_not_lt hroom, if_neg hroom]
    rfl

/-- The errors behind an event do not depend on what became of it. -/
theorem record_snd (log : EventLog) (errors : ErrorState) (file : String) (line : ℕ)
    (format : Bytes) (arguments : List Argument) :
    (log.record errors file line format arguments).2 =
      if errors.depth < ErrorState.maxDepth then errors else errors.clear := by
  rw [← restore_push, record]
  rcases log.heap.request 1 entryBytes with ⟨_ | _, heap⟩ <;> rfl

end EventLog

namespace ErrorState

/-! ## Any operations -/

/-- What a caller does that may change its errors. -/
inductive Operation
  | set (error : Error)
  | take
  | clear
  | push
  | pop
  /-- Formatting into a buffer of its own, with memory for it or without. -/
  | allocate (dialect : Dialect) (heap : Heap) (format : Bytes) (arguments : List Argument)
  | record (log : EventLog) (file : String) (line : ℕ) (format : Bytes) (arguments : List Argument)

/-- The errors after an operation. -/
def perform (errors : ErrorState) : Operation → ErrorState
  | .set error => errors.set error
  | .take => errors.take.2
  | .clear => errors.clear
  | .push => errors.push.2
  | .pop => errors.pop.2
  | .allocate dialect heap format arguments =>
    (formatAllocate dialect heap errors format arguments).errors
  | .record log file line format arguments => (log.record errors file line format arguments).2

/-- The states that operations make of a new one. -/
inductive Reachable : ErrorState → Prop
  | new : Reachable {}
  | perform {errors : ErrorState} (h : Reachable errors) (operation : Operation) :
      Reachable (errors.perform operation)

theorem depth_perform_le {errors : ErrorState} (h : errors.depth ≤ maxDepth)
    (operation : Operation) : (errors.perform operation).depth ≤ maxDepth := by
  cases operation with
  | set error => exact h
  | take | clear => exact h
  | push => exact depth_push_le h
  | pop => exact Nat.le_trans (depth_pop_le errors) h
  | allocate dialect heap format arguments =>
      rw [perform]
      rcases errors_formatAllocate dialect heap errors format arguments with hkept | hpopped
      · rwa [hkept]
      · rw [hpopped]
        exact Nat.le_trans (depth_pop_le errors) h
  | record log file line format arguments =>
      rw [perform, EventLog.record_snd]
      split
      · exact h
      · exact h

theorem Reachable.depth_le {errors : ErrorState} (h : Reachable errors) :
    errors.depth ≤ maxDepth := by
  induction h with
  | new => exact Nat.zero_le _
  | perform _ operation ih => exact depth_perform_le ih operation

theorem Reachable.foldl {errors : ErrorState} (h : Reachable errors)
    (operations : List Operation) : Reachable (operations.foldl ErrorState.perform errors) := by
  induction operations generalizing errors with
  | nil => exact h
  | cons operation operations ih => exact ih (h.perform operation)

end ErrorState

namespace EventLog

/-- **Recording an event does not disturb the errors of its caller.** Whether the event is stored,
stored without its message, shortened for want of slots, or dropped, the saved errors stay as they
are. The pending error stays too, unless the stack is full; then it is cleared. -/
theorem record_keeps_saved_errors {errors : ErrorState} (hreachable : errors.Reachable)
    (log : EventLog) (file : String) (line : ℕ) (format : Bytes) (arguments : List Argument) :
    let behind := (log.record errors file line format arguments).2
    behind.saved = errors.saved ∧ behind.depth = errors.depth ∧
    (errors.depth < ErrorState.maxDepth ∧ behind.pending = errors.pending ∨
      errors.depth = ErrorState.maxDepth ∧ behind.pending = none) := by
  intro behind
  have hdepth := hreachable.depth_le
  have hbehind : behind = if errors.depth < ErrorState.maxDepth then errors else errors.clear :=
    log.record_snd errors file line format arguments
  by_cases hroom : errors.depth < ErrorState.maxDepth
  · rw [hbehind, if_pos hroom]
    exact ⟨rfl, rfl, .inl ⟨hroom, rfl⟩⟩
  · rw [hbehind, if_neg hroom]
    exact ⟨rfl, rfl, .inr ⟨Nat.le_antisymm hdepth (Nat.le_of_not_lt hroom), rfl⟩⟩

/-- With a full stack: an event dropped, one without its message, one without its thirty-third
argument, and one stored whole. -/
theorem record_keeps_saved_errors_full :
    let operations : List ErrorState.Operation :=
      (List.replicate 16 [.set .outOfRange, .push]).flatten ++
        [.allocate .plain (.budget { remaining := 0 }) [] [], .push, .set .badNumber]
    let errors := operations.foldl ErrorState.perform {}
    let format := (List.replicate 33 (textBytes "%d")).flatten
    let arguments := List.replicate 33 (Argument.int 7)
    errors.Reachable ∧ errors.pending = some .badNumber ∧
    ∀ outcome ∈ [(0, []), (56, [[]]), (89, [List.replicate 32 (ascii '7')]),
        (1200, [List.replicate 33 (ascii '7')])],
      let log : EventLog :=
        { dialect := .plain, clock := .ofList [5], heap := .budget { remaining := outcome.1 } }
      let recorded := log.record errors "boot" 1 format arguments
      recorded.1.entries.map (·.message) = outcome.2 ∧
      recorded.2 = { pending := none, saved := List.replicate 16 (some .outOfRange) } := by
  intro operations errors format arguments
  have hreachable : errors.Reachable := ErrorState.Reachable.new.foldl operations
  have hsaved : errors.saved = List.replicate 16 (some .outOfRange) := by decide +kernel
  have hfull : errors.depth = ErrorState.maxDepth := by decide +kernel
  refine ⟨hreachable, by decide +kernel, ?_⟩
  intro outcome houtcome log recorded
  refine ⟨?_, ?_⟩
  · revert outcome
    decide +kernel
  · obtain ⟨hkept, -, hpending⟩ :=
      record_keeps_saved_errors hreachable log "boot" 1 format arguments
    have hcleared := (hpending.resolve_left fun h => Nat.ne_of_lt h.1 hfull).2
    exact congrArg₂ ErrorState.mk hcleared (hkept.trans hsaved)

end EventLog
end BoundedFormat
