import BoundedFormat.Proofs.Console.Printing
import BoundedFormat.Proofs.EventLog

/-!
# Accounts of a shared budget

Allocations, formatting calls, printers and logs may share one heap. `requests` says what an
operation asks of the heap that it finds: nothing, or up to three requests, each of which may depend
on what came of the ones before. An operation does to its heap what these requests do, one after the
other. So the accounts of a budget need to be kept for requests only: what was granted has been
paid, and what exceeded the budget has been counted.
-/

namespace BoundedFormat

open ArgumentList (inlineSlots)

namespace Heap

/-! ## Requests in a row -/

/-- A request for room: so many more elements of a size, in an array. -/
structure Request where
  count : ℕ
  elementBytes : ℕ
  array : Growing := {}
deriving DecidableEq

namespace Request

/-- The size of what is asked for, as a word shows it. -/
def size (r : Request) : ℕ := arrayBytes r.count r.elementBytes

/-- The array may become so large. -/
def fits (r : Request) : Bool := r.array.fits r.count r.elementBytes

/-- An allocator gives what is asked for. -/
def givenBy (r : Request) (allocator : Allocator) : Bool :=
  (allocator.grow r.array r.count r.elementBytes).1

/-- What is larger than an allocation fits no array. -/
theorem fits_eq_false {r : Request} (h : maxAllocation < r.size) : r.fits = false := by
  rw [← Bool.not_eq_true]
  intro hfits
  exact absurd (Growing.le_of_fits hfits) (Nat.not_le_of_lt h)

end Request

/-- A request, and the heap that it finds. -/
structure Inquiry where
  found : Heap
  request : Request
deriving DecidableEq

namespace Inquiry

/-- The answer, and the heap behind it. -/
def answer (i : Inquiry) : Bool × Heap :=
  i.found.request i.request.count i.request.elementBytes i.request.array

/-- The heap is a budget of which less remains than is asked for. -/
def exceeds (i : Inquiry) : Bool := i.found.budget?.any fun b => b.remaining < i.request.size

end Inquiry

/-- The heap when one request after the other has been made. -/
def askAll (heap : Heap) : List Request → Heap
  | [] => heap
  | r :: rs => (Inquiry.answer { found := heap, request := r }).2.askAll rs

/-- The requests made one after the other, each with the heap that it finds. -/
def inquiries (heap : Heap) : List Request → List Inquiry
  | [] => []
  | r :: rs =>
    { found := heap, request := r } ::
      (Inquiry.answer { found := heap, request := r }).2.inquiries rs

/-- What was paid for: the sizes of the requests that were granted. -/
def spent (made : List Inquiry) : ℕ :=
  ((made.filter fun i => i.answer.1).map fun i => i.request.size).sum

theorem askAll_append (heap : Heap) (rs more : List Request) :
    heap.askAll (rs ++ more) = (heap.askAll rs).askAll more := by
  induction rs generalizing heap with
  | nil => rfl
  | cons r rs ih => exact ih _

theorem inquiries_append (heap : Heap) (rs more : List Request) :
    heap.inquiries (rs ++ more) = heap.inquiries rs ++ (heap.askAll rs).inquiries more := by
  induction rs generalizing heap with
  | nil => rfl
  | cons r rs ih => exact congrArg (List.cons _) (ih _)

@[simp] theorem map_request_inquiries (heap : Heap) (rs : List Request) :
    (heap.inquiries rs).map Inquiry.request = rs := by
  induction rs generalizing heap with
  | nil => rfl
  | cons r rs ih => exact congrArg (List.cons r) (ih _)

theorem take_inquiries (heap : Heap) (rs : List Request) (n : ℕ) :
    (heap.inquiries rs).take n = heap.inquiries (rs.take n) := by
  induction rs generalizing heap n with
  | nil => simp [inquiries]
  | cons r rs ih =>
      cases n with
      | zero => rfl
      | succ n => exact congrArg (List.cons _) (ih _ n)

/-- The request with a number finds the heap that the requests before it leave. -/
theorem getElem?_inquiries (heap : Heap) (rs : List Request) (n : ℕ) :
    (heap.inquiries rs)[n]? = rs[n]?.map (Inquiry.mk (heap.askAll (rs.take n))) := by
  induction rs generalizing heap n with
  | nil => rfl
  | cons r rs ih =>
      cases n with
      | zero => rfl
      | succ n => exact ih _ n

/-! ## The accounts of a budget -/

section Answer

variable {i : Inquiry} {b : Budget} (hfound : i.found.budget? = some b)

include hfound

theorem exceeds_eq : i.exceeds = decide (b.remaining < i.request.size) := by
  rw [Inquiry.exceeds, hfound, Option.any_some]

theorem answer_fst_iff :
    i.answer.1 = true ↔
      i.request.size ≤ b.remaining ∧ i.request.givenBy i.found.allocator = true := by
  rw [Inquiry.answer, request_fst_iff, hfound, and_comm]
  refine and_congr_left' ⟨fun h => h b rfl, ?_⟩
  rintro h b' ⟨⟩
  exact h

/-- A request pays if it is granted. If not, it is counted if it exceeds the budget. -/
theorem budget?_answer :
    i.answer.2.budget? = some
      (if i.answer.1 then { b with remaining := b.remaining - i.request.size }
      else if b.remaining < i.request.size then { b with failures := b.failures + 1 }
      else b) := by
  rw [Inquiry.answer, request_of_budget? hfound, Request.size]
  by_cases hcounted : b.remaining < arrayBytes i.request.count i.request.elementBytes
  · simp only [if_pos hcounted, Bool.false_eq_true, if_false]
  · simp only [if_neg hcounted]
    split <;> rfl

/-- What the budget could pay, but no array can hold, leaves no trace. -/
theorem answer_of_not_fits (hpaid : i.request.size ≤ b.remaining)
    (hfits : i.request.fits = false) : i.answer = (false, i.found) := by
  have hgrow : i.found.allocator.grow i.request.array i.request.count i.request.elementBytes =
      (false, i.found.allocator) := by
    rw [Request.fits] at hfits
    rw [Allocator.grow, hfits]
    rfl
  rw [Inquiry.answer, request_of_budget? hfound, hgrow, ← Request.size,
    if_neg (Nat.not_lt_of_le hpaid), if_neg Bool.false_ne_true, ← hfound]

end Answer

/-- The accounts of a budget are in order: a heap is what requests have left of it. -/
def Accounts (b : Budget) (made : List Inquiry) (heap : Heap) : Prop :=
  ∃ rest : Budget, heap.budget? = some rest ∧ rest.remaining + spent made = b.remaining ∧
    rest.failures = b.failures + made.countP Inquiry.exceeds

/-- Accounts go on behind a budget that was left. -/
theorem Accounts.append {b : Budget} {made more : List Inquiry} {heap rest : Heap}
    (hfirst : Accounts b made heap)
    (hmore : ∀ b', heap.budget? = some b' → Accounts b' more rest) :
    Accounts b (made ++ more) rest := by
  obtain ⟨b', hheap, hremaining, hfailures⟩ := hfirst
  obtain ⟨b'', hrest, hremaining', hfailures'⟩ := hmore b' hheap
  refine ⟨b'', hrest, ?_, ?_⟩
  · rw [spent, List.filter_append, List.map_append, List.sum_append, ← spent, ← spent]
    omega
  · rw [List.countP_append]
    omega

/-- One request keeps the accounts in order. -/
theorem accounts_answer {i : Inquiry} {b : Budget} (hfound : i.found.budget? = some b) :
    Accounts b [i] i.answer.2 := by
  have hgranted := answer_fst_iff hfound
  refine ⟨_, budget?_answer hfound, ?_⟩
  rw [spent, List.countP_singleton, List.filter_singleton, exceeds_eq hfound]
  cases hanswer : i.answer.1 with
  | true =>
      have hpaid := (hgranted.mp hanswer).1
      have hcounted : ¬ b.remaining < i.request.size := Nat.not_lt_of_le hpaid
      simp only [if_true, cond_true, List.map_singleton, List.sum_singleton, hcounted,
        decide_false, Bool.false_eq_true, if_false, Nat.add_zero, and_true]
      exact Nat.sub_add_cancel hpaid
  | false =>
      simp only [Bool.false_eq_true, if_false, cond_false, List.map_nil, List.sum_nil,
        Nat.add_zero, decide_eq_true_eq]
      by_cases hcounted : b.remaining < i.request.size <;> simp only [hcounted, if_true, if_false,
        Nat.add_zero, and_self]

/-- Requests in a row keep the accounts in order. -/
theorem accounts_askAll {heap : Heap} {b : Budget} (hheap : heap.budget? = some b)
    (rs : List Request) : Accounts b (heap.inquiries rs) (heap.askAll rs) := by
  induction rs generalizing heap b with
  | nil => exact ⟨b, hheap, rfl, rfl⟩
  | cons r rs ih =>
      refine (accounts_answer (i := { found := heap, request := r }) hheap).append ?_
      intro b' hb'
      exact ih hb'

/-! ## Operations -/

/-- What is done with a shared heap. A printer and a log bring all of their state except the heap,
so that any number of them can share it. -/
inductive Operation
  | allocate (length : ℕ)
  | reserve (array : Growing) (count elementBytes : ℕ)
  | measure (dialect : Dialect) (format : Bytes) (arguments : List Argument)
  | store (dialect : Dialect) (buffer format : Bytes) (arguments : List Argument)
  | allocateText (dialect : Dialect) (errors : ErrorState) (format : Bytes)
      (arguments : List Argument)
  | print (printer : Console.Printer) (format : Bytes) (arguments : List Argument)
  | record (log : EventLog) (event : Event)

/-- The heap behind an operation. -/
def perform (heap : Heap) : Operation → Heap
  | .allocate length => (heap.allocate length).2
  | .reserve array count elementBytes => (heap.request count elementBytes array).2
  | .measure dialect format arguments => (formatLength dialect heap format arguments).2
  | .store dialect buffer format arguments => (formatInto dialect heap buffer format arguments).2
  | .allocateText dialect errors format arguments =>
    (formatAllocate dialect heap errors format arguments).heap
  | .print printer format arguments =>
    (Console.Printer.print { printer with heap } format arguments).printer.heap
  | .record log event => (Call.outcome { log := { log with heap }, event }).1.heap

/-- The heap when one operation after the other has been done. -/
def performAll (heap : Heap) (operations : List Operation) : Heap :=
  operations.foldl perform heap

/-- What a format asks for its slots. Slots at hand are not asked for. -/
def slotRequests (dialect : Dialect) (format : Bytes) : List Request :=
  if countArguments dialect format ≤ inlineSlots then []
  else [{ count := countArguments dialect format, elementBytes := dialect.slotBytes }]

/-- What is asked for a text of a length and its NUL. A length that no counter shows is not asked
for. -/
def textRequests (length : ℕ) : List Request :=
  if length < maxLength then [{ count := length + 1, elementBytes := 1 }] else []

/-- The length of the output of a call, with the arguments that the heap allows. -/
def outputLength (heap : Heap) (dialect : Dialect) (format : Bytes) (arguments : List Argument) :
    ℕ :=
  (formatOutput dialect heap format arguments).1.toBytes.length

/-- What an operation asks of the heap that it finds, in order. -/
def requests (heap : Heap) : Operation → List Request
  | .allocate length => [{ count := length, elementBytes := 1 }]
  | .reserve array count elementBytes => [{ count, elementBytes, array }]
  | .measure dialect format _ | .store dialect _ format _ => slotRequests dialect format
  | .allocateText dialect _ format arguments =>
    slotRequests dialect format ++ textRequests (heap.outputLength dialect format arguments)
  | .print printer format arguments =>
    let length := heap.outputLength printer.dialect format arguments
    slotRequests printer.dialect format ++ if length ≤ 255 then [] else textRequests length
  | .record log event =>
    let entry : Inquiry :=
      { found := heap, request := { count := 1, elementBytes := EventLog.entryBytes } }
    entry.request ::
      if entry.answer.1 then
        slotRequests log.dialect event.format ++
          textRequests (entry.answer.2.outputLength log.dialect event.format event.arguments)
      else []

theorem askAll_slotRequests (heap : Heap) (dialect : Dialect) (format : Bytes) :
    heap.askAll (slotRequests dialect format) =
      heap.afterSlots dialect (countArguments dialect format) := by
  rw [slotRequests, afterSlots]
  split <;> rfl

theorem askAll_textRequests (heap : Heap) (length : ℕ) :
    heap.askAll (textRequests length) = heap.afterText length := by
  rw [textRequests, afterText]
  split <;> rfl

theorem askAll_call (heap : Heap) (dialect : Dialect) (format : Bytes) (length : ℕ) :
    heap.askAll (slotRequests dialect format ++ textRequests length) =
      (heap.afterSlots dialect (countArguments dialect format)).afterText length := by
  rw [askAll_append, askAll_slotRequests, askAll_textRequests]

theorem heap_formatAllocate (heap : Heap) (dialect : Dialect) (errors : ErrorState)
    (format : Bytes) (arguments : List Argument) :
    (formatAllocate dialect heap errors format arguments).heap =
      heap.askAll (slotRequests dialect format ++
        textRequests (heap.outputLength dialect format arguments)) := by
  rw [askAll_call, formatAllocate_eq rfl (formatOutput_snd dialect heap format arguments)]
  split <;> rfl

/-- An operation does to its heap what its requests do. -/
theorem perform_eq_askAll (heap : Heap) (operation : Operation) :
    heap.perform operation = heap.askAll (heap.requests operation) := by
  cases operation with
  | allocate length =>
      rw [perform, Heap.allocate, requests, askAll, askAll, Inquiry.answer]
      rcases heap.request length 1 with ⟨_ | _, rest⟩ <;> rfl
  | reserve array count elementBytes => rfl
  | measure dialect format arguments =>
      rw [requests, askAll_slotRequests]
      exact formatOutput_snd dialect heap format arguments
  | store dialect buffer format arguments =>
      rw [requests, askAll_slotRequests]
      exact formatOutput_snd dialect heap format arguments
  | allocateText dialect errors format arguments =>
      exact heap_formatAllocate heap dialect errors format arguments
  | print printer format arguments =>
      obtain ⟨-, -, hheap, -⟩ :=
        Console.Printer.print_spec { printer with heap } format arguments
      have hlength : heap.outputLength printer.dialect format arguments =
          (Console.Printer.message { printer with heap } format arguments).length := by
        rw [outputLength, toBytes_formatOutput_system]
        rfl
      rw [perform, hheap, requests, ← hlength]
      split
      · rw [List.append_nil, askAll_slotRequests]
        rfl
      · rw [askAll_call]
        rfl
  | record log event =>
      let call : Call := { log := { log with heap }, event }
      rw [perform, requests, askAll]
      by_cases hroom : call.HasRoom
      · have hgranted : (heap.request 1 EventLog.entryBytes).1 = true := hroom
        rw [call.outcome_of_hasRoom hroom, ← call.heap_message {}, Inquiry.answer, if_pos hgranted]
        exact heap_formatAllocate call.afterEntry log.dialect {} event.format event.arguments
      · have hrefused : ¬ (heap.request 1 EventLog.entryBytes).1 = true := hroom
        rw [call.outcome_of_not_hasRoom hroom, Inquiry.answer, if_neg hrefused]
        rfl

/-! ## Runs -/

/-- The requests of a run of operations, each with the heap that it finds. -/
def inquiriesAll (heap : Heap) : List Operation → List Inquiry
  | [] => []
  | operation :: operations =>
    heap.inquiries (heap.requests operation) ++ (heap.perform operation).inquiriesAll operations

/-- The requests of a run are made in a row. -/
theorem inquiriesAll_eq (heap : Heap) (operations : List Operation) :
    heap.inquiries ((heap.inquiriesAll operations).map Inquiry.request) =
      heap.inquiriesAll operations := by
  induction operations generalizing heap with
  | nil => rfl
  | cons operation operations ih =>
      rw [inquiriesAll, List.map_append, map_request_inquiries, inquiries_append,
        ← perform_eq_askAll, ih]

/-- A run of operations does to its heap what its requests do. -/
theorem performAll_eq_askAll (heap : Heap) (operations : List Operation) :
    heap.performAll operations =
      heap.askAll ((heap.inquiriesAll operations).map Inquiry.request) := by
  induction operations generalizing heap with
  | nil => rfl
  | cons operation operations ih =>
      rw [inquiriesAll, List.map_append, map_request_inquiries, askAll_append,
        ← perform_eq_askAll, ← ih]
      rfl

theorem inquiriesAll_append (heap : Heap) (operations more : List Operation) :
    heap.inquiriesAll (operations ++ more) =
      heap.inquiriesAll operations ++ (heap.performAll operations).inquiriesAll more := by
  induction operations generalizing heap with
  | nil => rfl
  | cons operation operations ih =>
      rw [List.cons_append, inquiriesAll, inquiriesAll, ih, List.append_assoc]
      rfl

theorem inquiriesAll_take_prefix (heap : Heap) (operations : List Operation) (k : ℕ) :
    heap.inquiriesAll (operations.take k) <+: heap.inquiriesAll operations := by
  conv_rhs => rw [← List.take_append_drop k operations, inquiriesAll_append]
  exact List.prefix_append ..

/-- The first requests of a run find, made alone, what they find in the run. -/
theorem take_inquiriesAll (heap : Heap) (operations : List Operation) (n : ℕ) :
    heap.inquiries (((heap.inquiriesAll operations).take n).map Inquiry.request) =
      (heap.inquiriesAll operations).take n := by
  rw [List.map_take, ← take_inquiries, inquiriesAll_eq]

/-- The first operations of a run make the first of its requests. -/
theorem performAll_take (heap : Heap) (operations : List Operation) (k : ℕ) :
    heap.performAll (operations.take k) =
      heap.askAll (((heap.inquiriesAll operations).take
        (heap.inquiriesAll (operations.take k)).length).map Inquiry.request) := by
  have hfront := List.prefix_iff_eq_take.mp (heap.inquiriesAll_take_prefix operations k)
  rw [performAll_eq_askAll, ← hfront]

/-- A request of a run finds what the ones before it leave, and leaves its answer. -/
theorem askAll_take_inquiriesAll {heap : Heap} {operations : List Operation} {n : ℕ} {i : Inquiry}
    (hi : (heap.inquiriesAll operations)[n]? = some i) :
    heap.askAll (((heap.inquiriesAll operations).take n).map Inquiry.request) = i.found ∧
      heap.askAll (((heap.inquiriesAll operations).take (n + 1)).map Inquiry.request) =
        i.answer.2 := by
  have hfound : heap.askAll (((heap.inquiriesAll operations).take n).map Inquiry.request) =
      i.found := by
    rw [← inquiriesAll_eq, getElem?_inquiries, Option.map_eq_some_iff] at hi
    obtain ⟨r, hr, rfl⟩ := hi
    rw [List.map_take]
  refine ⟨hfound, ?_⟩
  have hnext : ((heap.inquiriesAll operations).take (n + 1)).map Inquiry.request =
      ((heap.inquiriesAll operations).take n).map Inquiry.request ++ [i.request] := by
    rw [List.take_add_one, hi, List.map_append]
    rfl
  rw [hnext, askAll_append, hfound, askAll, askAll]

theorem accounts_take_inquiriesAll {heap : Heap} {b : Budget} (hheap : heap.budget? = some b)
    (operations : List Operation) (n : ℕ) :
    let made := heap.inquiriesAll operations
    Accounts b (made.take n) (heap.askAll ((made.take n).map Inquiry.request)) := by
  intro made
  have hrequests := accounts_askAll hheap ((made.take n).map Inquiry.request)
  rwa [take_inquiriesAll] at hrequests

/-- An allocation is a request for bytes, and gives as many zeros. -/
theorem allocate_spec (heap : Heap) (length : ℕ) :
    (heap.allocate length).1.isSome = (heap.request length 1).1 ∧
      ∀ buffer ∈ (heap.allocate length).1, buffer.length = length ∧ ∀ byte ∈ buffer, byte = 0 := by
  rw [Heap.allocate]
  rcases heap.request length 1 with ⟨_ | _, rest⟩
  · exact ⟨rfl, fun buffer hbuffer => by cases hbuffer⟩
  · refine ⟨rfl, ?_⟩
    intro buffer hbuffer
    cases hbuffer
    exact ⟨List.length_replicate, fun byte hbyte => List.eq_of_mem_replicate hbyte⟩

/-- **A shared budget is conserved.** Operations on a budget, in any order and over any allocator,
make their requests in turn and do nothing else to it. At every point, what remains and the sizes of
the requests granted so far make up the budget of the start, and as many failures are counted as
requests found less than they asked for. A request is granted if the budget pays for it and the
allocator gives it, which it cannot if the array is to become larger than an allocation; then it
pays its size. One that is refused pays nothing. It is counted if the budget was short; otherwise
neither count changes, and if no array can be so large, nothing does. A buffer that is allocated has
its length and holds zeros. A call that measures or stores asks at most once, for its slots, and
only if they are more than 32. -/
theorem operations_conserve_budget (allocator : Allocator) (budget : ℕ)
    (operations : List Operation) :
    let start : Heap := { allocator, budget? := some { remaining := budget } }
    let made := start.inquiriesAll operations
    let behind := fun n => start.askAll ((made.take n).map Inquiry.request)
    (∀ k, start.inquiriesAll (operations.take k) <+: made ∧
      start.performAll (operations.take k) =
        behind (start.inquiriesAll (operations.take k)).length) ∧
    (∀ n, ∃ rest : Budget, (behind n).budget? = some rest ∧
      rest.remaining + (((made.take n).filter fun i => i.answer.1).map
        fun i => i.request.size).sum = budget ∧
      rest.failures = ((made.take n).countP fun i => i.exceeds) ∧ rest.failures ≤ n) ∧
    (∀ n i, made[n]? = some i → ∃ b : Budget, i.found.budget? = some b ∧
      behind n = i.found ∧ behind (n + 1) = i.answer.2 ∧
      i.exceeds = decide (b.remaining < i.request.size) ∧
      (i.answer.1 = true ↔
        i.request.size ≤ b.remaining ∧ i.request.givenBy i.found.allocator = true) ∧
      i.answer.2.budget? = some
        (if i.answer.1 then { b with remaining := b.remaining - i.request.size }
        else if b.remaining < i.request.size then { b with failures := b.failures + 1 }
        else b) ∧
      (i.request.size ≤ b.remaining → i.request.fits = false → i.answer = (false, i.found)) ∧
      (maxAllocation < i.request.size → i.request.fits = false)) ∧
    (∀ (heap : Heap) (length : ℕ),
      (heap.allocate length).1.isSome = (heap.request length 1).1 ∧
      ∀ buffer ∈ (heap.allocate length).1, buffer.length = length ∧ ∀ byte ∈ buffer, byte = 0) ∧
    ∀ (heap : Heap) (dialect : Dialect) (format : Bytes) (arguments : List Argument),
      let count := countArguments dialect format
      let asked : List Request :=
        if count ≤ 32 then [] else [{ count, elementBytes := dialect.slotBytes }]
      (formatLength dialect heap format arguments).2 = heap.askAll asked ∧
      ∀ buffer, (formatInto dialect heap buffer format arguments).2 = heap.askAll asked := by
  intro start made behind
  have hstart : start.budget? = some { remaining := budget } := rfl
  refine ⟨?_, ?_, ?_, allocate_spec, ?_⟩
  · intro k
    exact ⟨start.inquiriesAll_take_prefix operations k, start.performAll_take operations k⟩
  · intro n
    obtain ⟨rest, hrest, hremaining, hfailures⟩ :=
      accounts_take_inquiriesAll hstart operations n
    rw [Nat.zero_add] at hfailures
    refine ⟨rest, hrest, hremaining, hfailures, ?_⟩
    rw [hfailures]
    exact Nat.le_trans List.countP_le_length (List.length_take_le n _)
  · intro n i hi
    obtain ⟨hfound, hnext⟩ := askAll_take_inquiriesAll hi
    obtain ⟨b, hb, -⟩ := accounts_take_inquiriesAll hstart operations n
    have hbudget : i.found.budget? = some b := by rw [← hfound, hb]
    exact ⟨b, hbudget, hfound, hnext, exceeds_eq hbudget, answer_fst_iff hbudget,
      budget?_answer hbudget, answer_of_not_fits hbudget, Request.fits_eq_false⟩
  · intro heap dialect format arguments count asked
    exact ⟨heap.perform_eq_askAll (.measure dialect format arguments),
      fun buffer => heap.perform_eq_askAll (.store dialect buffer format arguments)⟩

/-- Requests that fit no array, one that saturates, one for which there is room already, an event
that is stored but whose message the allocator refuses, a long message, and a buffer for which there
is no answer left. -/
theorem operations_conserve_budget_oversized :
    let log : EventLog := { dialect := .plain, clock := .ofList [5], heap := .system }
    let event : Event :=
      { errors := {}, file := "boot", line := 1, format := textBytes "x", arguments := [] }
    let operations : List Operation :=
      [.reserve { length := 2, capacity := 2 } (2 ^ 63 - 2) 1, .reserve {} (2 ^ 60) 8,
        .reserve {} (2 ^ 62) 8, .reserve { length := 3, capacity := 8 } 5 16, .record log event,
        .print (.fresh .plain .system) (textBytes "%300d") [.int 7], .allocate 143]
    let start : Heap :=
      { allocator := .answering [true, false, true]
        budget? := some { remaining := 2 ^ 63 + 500 } }
    let made := start.inquiriesAll operations
    let first : Inquiry :=
      { found := start
        request :=
          { count := 2 ^ 63 - 2, elementBytes := 1, array := { length := 2, capacity := 2 } } }
    made.map (fun i => (i.request.size, i.answer.1)) =
      [(2 ^ 63 - 2, false), (2 ^ 63, false), (2 ^ 64 - 1, false), (80, true), (56, true),
        (2, false), (301, true), (143, false)] ∧
    made[0]? = some first ∧ first.answer = (false, start) ∧
    (start.performAll operations).budget? = some { remaining := 2 ^ 63 + 63, failures := 1 } ∧
    ∃ buffer ∈ ((Heap.budget { remaining := 143 }).allocate 143).1,
      buffer.length = 143 ∧ ∀ byte ∈ buffer, byte = 0 := by
  intro log event operations start made first
  obtain ⟨-, -, heach, hbuffers, -⟩ :=
    operations_conserve_budget (.answering [true, false, true]) (2 ^ 63 + 500) operations
  have hfirst : made[0]? = some first := by decide +kernel
  have hgranted : List.replicate 143 0 ∈ ((Heap.budget { remaining := 143 }).allocate 143).1 := by
    decide +kernel
  refine ⟨by decide +kernel, hfirst, ?_, by decide +kernel, _, hgranted,
    (hbuffers _ 143).2 _ hgranted⟩
  obtain ⟨b, hfound, -, -, -, -, -, huntraced, -⟩ := heach 0 first hfirst
  cases hfound
  exact huntraced (by decide) (by decide)

end Heap
end BoundedFormat
