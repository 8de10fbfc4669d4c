import BoundedFormat.Proofs.PendingError

/-!
# Errors saved around nested work

A caller saves its pending error before work whose failures must not show and takes it back
afterwards; the work may do the same around its own. `Nested` are the operations in which every
save has its restore. The main statement is that all of them succeed as long as the nesting does not
go deeper than there is room, and that a restore brings back what was there before its own save.
-/

namespace BoundedFormat
namespace ErrorState

/-! ## Nested operations -/

/-- True for the operations that leave the saved errors alone, whatever the errors are. An
allocation does if there is memory for it. -/
def Operation.isHarmless : Operation → Bool
  | .set _ | .take | .clear | .record .. => true
  | .push | .pop => false
  | .allocate dialect heap format arguments =>
    (formatAllocate dialect heap {} format arguments).result.isOk

theorem saved_perform_of_isHarmless {operation : Operation} (h : operation.isHarmless)
    (errors : ErrorState) : (errors.perform operation).saved = errors.saved := by
  cases operation with
  | set error | take | clear => rfl
  | push | pop => cases h
  | allocate dialect heap format arguments =>
      rw [Operation.isHarmless, formatAllocate_eq rfl rfl] at h
      rw [perform, formatAllocate_eq rfl rfl]
      split at h
      · next hroom => rw [if_pos hroom]
      · cases h
  | record log file line format arguments =>
      rw [perform, EventLog.record_snd]
      split <;> rfl

/-- Every push has its pop, and no more than `n` of them are open at a time. -/
inductive Nested : ℕ → List Operation → Prop
  | done (n : ℕ) : Nested n []
  | step {n : ℕ} {operation : Operation} {rest : List Operation} (h : operation.isHarmless)
      (hrest : Nested n rest) : Nested n (operation :: rest)
  | bracket {n : ℕ} {inner rest : List Operation} (hinner : Nested n inner)
      (hrest : Nested (n + 1) rest) : Nested (n + 1) (.push :: (inner ++ .pop :: rest))

/-- The pop that comes behind `front` belongs to the push that comes behind `before`: what is
between them is nested by itself. -/
def Matches (before front : List Operation) : Prop :=
  ∃ inner n, Nested n inner ∧ front = before ++ .push :: inner

theorem Matches.append_left {before front : List Operation} (h : Matches before front)
    (earlier : List Operation) : Matches (earlier ++ before) (earlier ++ front) := by
  obtain ⟨inner, n, hinner, rfl⟩ := h
  exact ⟨inner, n, hinner, (List.append_assoc ..).symm⟩

/-- Every pop has its push. -/
theorem Nested.exists_matches {n : ℕ} {operations front after : List Operation}
    (H : Nested n operations) (h : operations = front ++ .pop :: after) :
    ∃ before, Matches before front := by
  induction H generalizing front after with
  | done n => simp at h
  | @step n operation rest hharmless hrest ih =>
      cases front with
      | nil =>
          obtain ⟨rfl, -⟩ := List.cons.inj h
          cases hharmless
      | cons first front =>
          obtain ⟨before, hmatches⟩ := ih (List.cons.inj h).2
          exact ⟨first :: before, hmatches.append_left [first]⟩
  | @bracket n inner rest hinner hrest ihinner ihrest =>
      cases front with
      | nil => cases (List.cons.inj h).1
      | cons first front =>
          obtain ⟨rfl, htail⟩ := List.cons.inj h
          -- the pop closes the brackets if `middle` is empty; else it is behind or between them
          rcases List.append_eq_append_iff.mp htail with
            ⟨middle, hfront, hmiddle⟩ | ⟨middle, hbetween, hmiddle⟩
          · cases middle with
            | nil =>
                rw [List.append_nil] at hfront
                exact ⟨[], inner, n, hinner, by rw [hfront]; rfl⟩
            | cons closing middle =>
                obtain ⟨rfl, hrest'⟩ := List.cons.inj hmiddle
                obtain ⟨before, hmatches⟩ := ihrest hrest'
                have hbehind := hmatches.append_left (.push :: (inner ++ [.pop]))
                rw [List.cons_append, List.cons_append, List.append_assoc, List.append_assoc]
                  at hbehind
                rw [hfront]
                exact ⟨_, hbehind⟩
          · cases middle with
            | nil =>
                rw [List.append_nil] at hbetween
                exact ⟨[], inner, n, hinner, by rw [hbetween]; rfl⟩
            | cons closing middle =>
                obtain ⟨rfl, -⟩ := List.cons.inj hmiddle
                obtain ⟨before, hmatches⟩ := ihinner hbetween
                exact ⟨.push :: before, hmatches.append_left [.push]⟩

/-! ## Runs in which every push saves -/

/-- No push of a run finds the stack full. -/
def PushesSave (errors : ErrorState) : List Operation → Prop
  | [] => True
  | operation :: rest =>
    (operation = .push → errors.push.1 = true) ∧ PushesSave (errors.perform operation) rest

theorem pushesSave_append {errors : ErrorState} {first second : List Operation} :
    errors.PushesSave (first ++ second) ↔
      errors.PushesSave first ∧ (first.foldl perform errors).PushesSave second := by
  induction first generalizing errors with
  | nil => simp [PushesSave]
  | cons operation first ih =>
      rw [List.cons_append, PushesSave, PushesSave, ih, and_assoc]
      rfl

/-- A push that saves keeps the errors as they are under the pending one. -/
theorem saved_push {errors : ErrorState} (h : errors.push.1 = true) :
    errors.push.2.saved = errors.pending :: errors.saved := by
  by_cases hroom : errors.depth < maxDepth
  · rw [push_of_lt hroom]
  · rw [push_of_not_lt hroom] at h
    cases h

/-- A pop behind work that kept the saved errors undoes the push before it. -/
theorem pop_of_saved_eq {errors behind : ErrorState} (hpush : errors.push.1 = true)
    (hsaved : behind.saved = errors.push.2.saved) : behind.pop = (true, errors) := by
  rw [saved_push hpush] at hsaved
  rw [pop, hsaved]

/-- Nested operations give the saved errors back, if every push saves. -/
theorem Nested.saved_eq {n : ℕ} {operations : List Operation} (H : Nested n operations)
    {errors : ErrorState} (h : errors.PushesSave operations) :
    (operations.foldl perform errors).saved = errors.saved := by
  induction H generalizing errors with
  | done n => rfl
  | @step n operation rest hharmless hrest ih =>
      rw [List.foldl_cons, ih h.2, saved_perform_of_isHarmless hharmless]
  | @bracket n inner rest hinner hrest ihinner ihrest =>
      obtain ⟨hpush, hbehind⟩ := h
      obtain ⟨hsaves, -, hafter⟩ := pushesSave_append.mp hbehind
      have hpop := pop_of_saved_eq (hpush rfl) (ihinner hsaves)
      have hback : (inner.foldl perform (errors.perform .push)).perform .pop = errors :=
        congrArg Prod.snd hpop
      rw [hback] at hafter
      rw [List.foldl_cons, List.foldl_append, List.foldl_cons, hback, ihrest hafter]

/-- With room for the whole nesting, every push saves. -/
theorem Nested.pushesSave {n : ℕ} {operations : List Operation} (H : Nested n operations)
    {errors : ErrorState} (hroom : errors.depth + n ≤ maxDepth) :
    errors.PushesSave operations := by
  induction H generalizing errors with
  | done n => trivial
  | @step n operation rest hharmless hrest ih =>
      have hdepth : (errors.perform operation).depth = errors.depth :=
        congrArg List.length (saved_perform_of_isHarmless hharmless errors)
      refine ⟨?_, ih (by rwa [hdepth])⟩
      rintro rfl
      cases hharmless
  | @bracket n inner rest hinner hrest ihinner ihrest =>
      have hpush : errors.push.1 = true := by rw [push_of_lt (by omega)]
      have hdepth : errors.push.2.depth = errors.depth + 1 :=
        congrArg List.length (saved_push hpush)
      have hsaves : errors.push.2.PushesSave inner := ihinner (by omega)
      have hpop := pop_of_saved_eq hpush (hinner.saved_eq hsaves)
      have hback : (inner.foldl perform errors.push.2).perform .pop = errors :=
        congrArg Prod.snd hpop
      refine ⟨fun _ => hpush, pushesSave_append.mpr ⟨hsaves, ?_, ?_⟩⟩
      · rintro ⟨⟩
      · rw [perform, hback]
        exact ihrest hroom

/-- A pop finds what its push saved, and brings the errors back that were there before the push. -/
theorem Matches.pop_eq {before front after : List Operation} (h : Matches before front)
    {errors : ErrorState} (hsaves : errors.PushesSave (front ++ .pop :: after)) :
    (front.foldl perform errors).pop = (true, before.foldl perform errors) := by
  obtain ⟨inner, n, hinner, rfl⟩ := h
  obtain ⟨-, hpush, hbehind⟩ := pushesSave_append.mp (pushesSave_append.mp hsaves).1
  rw [List.foldl_append, List.foldl_cons]
  exact pop_of_saved_eq (hpush rfl) (hinner.saved_eq hbehind)

/-- **Nested work leaves the errors of its caller as they were.** No operations save more than
sixteen errors. Where pushes and pops are nested no deeper than there is room for, all of them
succeed, the saved errors are in the end those of the start, and every pop has a push of its own:
behind the pop the pending error and the saved ones are those from before that push, whatever was
set, taken, recorded or allocated in between. -/
theorem nested_operations_keep_errors :
    (∀ operations : List Operation, (operations.foldl perform {}).depth ≤ maxDepth) ∧
    ∀ (errors : ErrorState) (n : ℕ) (operations : List Operation), Nested n operations →
      errors.depth + n ≤ maxDepth →
      (operations.foldl perform errors).saved = errors.saved ∧
      (∀ before after, operations = before ++ .push :: after →
        (before.foldl perform errors).push.1 = true) ∧
      ∀ front after, operations = front ++ .pop :: after →
        (front.foldl perform errors).pop.1 = true ∧
        (∃ before, Matches before front) ∧
        ∀ before, Matches before front →
          (front.foldl perform errors).pop.2 = before.foldl perform errors := by
  refine ⟨fun operations => (Reachable.new.foldl operations).depth_le, ?_⟩
  intro errors n operations H hroom
  have hsaves := H.pushesSave hroom
  refine ⟨H.saved_eq hsaves, ?_, ?_⟩
  · rintro before after rfl
    exact (pushesSave_append.mp hsaves).2.1 rfl
  · rintro front after rfl
    obtain ⟨before, hmatches⟩ := H.exists_matches rfl
    refine ⟨?_, ⟨before, hmatches⟩, ?_⟩
    · rw [hmatches.pop_eq hsaves]
    · intro before hmatches
      rw [hmatches.pop_eq hsaves]

/-- An event recorded on the full stack costs the pending error, but not the one saved last. -/
theorem nested_operations_keep_errors_full :
    let log : EventLog :=
      { dialect := .plain, clock := .ofList [5], heap := .budget { remaining := 0 } }
    let inner : List Operation := [.set .outOfMemory, .record log "boot" 1 (textBytes "up") []]
    let front : List Operation :=
      [.set .badNumber, .push, .allocate .plain .system (textBytes "%d") [.int 7],
        .set .outOfRange]
    let operations := front ++ .push :: (inner ++ [.pop, .take, .pop])
    let errors : ErrorState := { saved := List.replicate 14 none }
    Nested 2 operations ∧ errors.depth + 2 ≤ maxDepth ∧
    ((front ++ .push :: inner).foldl perform errors).depth = maxDepth ∧
    ((front ++ .push :: inner).foldl perform errors).pending = none ∧
    ((front ++ .push :: inner).foldl perform errors).pop.2.pending = some .outOfRange ∧
    (operations.foldl perform errors).pending = some .badNumber ∧
    (operations.foldl perform errors).saved = errors.saved := by
  intro log inner front operations errors
  have hinner : Nested 0 inner := .step rfl (.step rfl (.done 0))
  have hmiddle : Nested 1 (front.drop 2 ++ .push :: (inner ++ [.pop, .take])) :=
    .step (by decide +kernel) (.step rfl (.bracket hinner (.step rfl (.done 1))))
  have hnested : Nested 2 operations := .step rfl (.bracket hmiddle (.done 2))
  have hroom : errors.depth + 2 ≤ maxDepth := by decide
  obtain ⟨hsaved, -, hpops⟩ := nested_operations_keep_errors.2 errors 2 operations hnested hroom
  obtain ⟨-, -, hpop⟩ := hpops (front ++ .push :: inner) [.take, .pop] rfl
  refine ⟨hnested, hroom, by decide +kernel, by decide +kernel, ?_, by decide +kernel, hsaved⟩
  rw [hpop front ⟨inner, 0, hinner, rfl⟩]
  decide +kernel

end ErrorState
end BoundedFormat
