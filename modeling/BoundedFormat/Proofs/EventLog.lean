import BoundedFormat.Proofs.PendingError
import BoundedFormat.Proofs.Refusal
import Mathlib.Algebra.GroupWithZero.Nat
import Mathlib.Data.Nat.Basic
import Mathlib.Order.Monotone.Defs

/-!
# What a run of events leaves in a log

A `Call` is an event with the log that it finds. From these two alone it follows whether an entry is
stored, what its message is, and what the heap pays for entry, slots and message. The main statement
lists the entries behind any run that starts with a budget: one for each call that finds room, in
the order of the calls, stamped with the readings of the clock in turn. It also says what a call
without room changes, and that nothing of the budget is lost.
-/

namespace BoundedFormat

/-- Something to be recorded, and the errors of the caller. -/
structure Event where
  errors : ErrorState
  file : String
  line : ℕ
  format : Bytes
  arguments : List Argument

/-- An event, and the log that it finds. -/
structure Call where
  log : EventLog
  event : Event

namespace Call

variable (call : Call)

/-- What the call makes of the log and of the caller's errors. -/
def outcome : EventLog × ErrorState :=
  call.log.record call.event.errors call.event.file call.event.line call.event.format
    call.event.arguments

/-- The heap has room for an entry. -/
def HasRoom : Prop := (call.log.heap.request 1 EventLog.entryBytes).1 = true

instance : Decidable call.HasRoom := inferInstanceAs (Decidable (_ = true))

/-- The heap when the entry is paid for. -/
def afterEntry : Heap := (call.log.heap.request 1 EventLog.entryBytes).2

/-- How many slots the message asks for. -/
def slots : ℕ := countArguments call.log.dialect call.event.format

/-- The heap when the slots of the message have been asked for. -/
def afterSlots : Heap := call.afterEntry.afterSlots call.log.dialect call.slots

/-- The output that is to become the message, with the arguments that the heap allows. -/
def text : Bytes :=
  (formatOutput call.log.dialect .system call.event.format
    (call.afterEntry.allowed call.log.dialect call.slots call.event.arguments)).1.toBytes

/-- The message of the entry: what is allocated for it, or nothing. -/
def message : Bytes :=
  (formatAllocate call.log.dialect call.afterEntry {} call.event.format
    call.event.arguments).result.toOption.getD []

/-- The entry that is stored if there is room for it. -/
def entry (milliseconds : ℕ) : EventEntry where
  file := call.event.file
  line := call.event.line
  milliseconds := milliseconds
  message := call.message

/-- What the heap pays for a call. A call without room costs nothing. -/
def cost : ℕ :=
  if call.HasRoom then
    EventLog.entryBytes + call.afterEntry.slotCharge call.log.dialect call.slots +
      call.afterSlots.textCharge call.text.length
  else 0

/-! ## One call -/

theorem formatAllocate_afterEntry (errors : ErrorState) :
    formatAllocate call.log.dialect call.afterEntry errors call.event.format
        call.event.arguments =
      if call.afterSlots.GrantsText call.text.length then
        { result := .ok call.text, heap := call.afterSlots.afterText call.text.length, errors }
      else
        { result := .error .outOfMemory, heap := call.afterSlots.afterText call.text.length,
          errors := errors.pop.2 } := by
  have htext := toBytes_formatOutput_system call.log.dialect call.afterEntry call.event.format
    call.event.arguments
  have hrest := Heap.formatOutput_snd call.log.dialect call.afterEntry call.event.format
    call.event.arguments
  exact formatAllocate_eq htext hrest errors

/-- A message is shown whole or not at all. -/
theorem message_eq :
    call.message = if call.afterSlots.GrantsText call.text.length then call.text else [] := by
  rw [message, formatAllocate_afterEntry]
  split <;> rfl

theorem heap_message (errors : ErrorState) :
    (formatAllocate call.log.dialect call.afterEntry errors call.event.format
      call.event.arguments).heap = call.afterSlots.afterText call.text.length := by
  rw [formatAllocate_afterEntry]
  split <;> rfl

theorem outcome_of_hasRoom (hroom : call.HasRoom) :
    call.outcome.1 =
      { call.log with
        clock := call.log.clock.read.2
        heap := call.afterSlots.afterText call.text.length
        entries := call.log.entries ++ [call.entry call.log.clock.read.1] } := by
  rw [← call.heap_message {}]
  rw [outcome, EventLog.record, entry, message, afterEntry]
  rw [HasRoom] at hroom
  rcases hrequest : call.log.heap.request 1 EventLog.entryBytes with ⟨granted, heap⟩
  rw [hrequest] at hroom
  cases hroom
  rfl

variable {call} in
theorem entries_outcome (hroom : call.HasRoom) :
    call.outcome.1.entries =
      call.log.entries ++ [call.entry (call.log.clock.reading call.log.clock.taken)] := by
  rw [call.outcome_of_hasRoom hroom]
  rfl

variable {call} in
theorem clock_outcome (hroom : call.HasRoom) :
    call.outcome.1.clock = { call.log.clock with taken := call.log.clock.taken + 1 } := by
  rw [call.outcome_of_hasRoom hroom]
  rfl

theorem outcome_of_not_hasRoom (hroom : ¬ call.HasRoom) :
    call.outcome.1 = { call.log with heap := call.afterEntry } := by
  rw [outcome, EventLog.record, afterEntry]
  rw [HasRoom] at hroom
  rcases hrequest : call.log.heap.request 1 EventLog.entryBytes with ⟨granted, heap⟩
  rw [hrequest] at hroom
  cases granted with
  | false => rfl
  | true => exact absurd rfl hroom

theorem outcome_snd :
    call.outcome.2 =
      if call.event.errors.depth < ErrorState.maxDepth then call.event.errors
      else call.event.errors.clear :=
  call.log.record_snd ..

section Budget

variable {call} {found : Budget}

theorem request_entry_budget (found : Budget) :
    (Heap.budget found).request 1 EventLog.entryBytes =
      if EventLog.entryBytes ≤ found.remaining then
        (true, .budget { found with remaining := found.remaining - EventLog.entryBytes })
      else (false, .budget { found with failures := found.failures + 1 }) := by
  have hbytes : arrayBytes 1 EventLog.entryBytes = EventLog.entryBytes := by decide
  have hfits : EventLog.entryBytes ≤ maxAllocation := by decide
  rw [Heap.request_budget (by decide), hbytes]
  by_cases hpaid : EventLog.entryBytes ≤ found.remaining
  · rw [if_pos ⟨hfits, hpaid⟩, if_pos hpaid]
  · rw [if_neg (fun h => hpaid h.2), if_neg hpaid, if_pos (Nat.lt_of_not_le hpaid)]

theorem hasRoom_budget (hfound : call.log.heap = .budget found) :
    call.HasRoom ↔ EventLog.entryBytes ≤ found.remaining := by
  rw [HasRoom, hfound, request_entry_budget]
  by_cases hpaid : EventLog.entryBytes ≤ found.remaining <;> simp [hpaid]

theorem afterEntry_budget (hfound : call.log.heap = .budget found) :
    call.afterEntry = .budget
      (if EventLog.entryBytes ≤ found.remaining then
        { found with remaining := found.remaining - EventLog.entryBytes }
      else { found with failures := found.failures + 1 }) := by
  rw [afterEntry, hfound, request_entry_budget]
  split <;> rfl

end Budget

/-- The heap pays the cost of a call and nothing else. -/
theorem pays_cost : call.log.heap.Pays call.cost call.outcome.1.heap := by
  have hentry := call.log.heap.request_pays 1 EventLog.entryBytes
  rw [Heap.charge] at hentry
  by_cases hroom : call.HasRoom
  · have hgranted : (call.log.heap.request 1 EventLog.entryBytes).1 = true := hroom
    rw [if_pos hgranted] at hentry
    rw [call.outcome_of_hasRoom hroom, cost, if_pos hroom]
    exact (hentry.trans (call.afterEntry.afterSlots_pays _ _)).trans
      (call.afterSlots.afterText_pays _)
  · have hrefused : ¬ (call.log.heap.request 1 EventLog.entryBytes).1 = true := hroom
    rw [if_neg hrefused] at hentry
    rw [call.outcome_of_not_hasRoom hroom, cost, if_neg hroom]
    exact hentry

end Call

/-! ## Runs -/

namespace EventLog

/-- The log when one event after the other has been recorded. -/
def recordAll (log : EventLog) : List Event → EventLog
  | [] => log
  | event :: events => (Call.outcome { log, event }).1.recordAll events

/-- The calls of a run, in order. -/
def calls (log : EventLog) : List Event → List Call
  | [] => []
  | event :: events => { log, event } :: (Call.outcome { log, event }).1.calls events

/-- The calls of a run that find room. -/
def storing (log : EventLog) (events : List Event) : List Call :=
  (log.calls events).filter fun call => call.HasRoom

variable (log : EventLog) (events : List Event)

theorem recordAll_append (more : List Event) :
    log.recordAll (events ++ more) = (log.recordAll events).recordAll more := by
  induction events generalizing log with
  | nil => rfl
  | cons event events ih => exact ih _

/-- The call with a number finds the log that the calls before it leave. -/
theorem getElem?_calls (k : ℕ) :
    (log.calls events)[k]? =
      events[k]?.map (Call.mk (log.recordAll (events.take k))) := by
  induction events generalizing log k with
  | nil => rfl
  | cons event events ih =>
      cases k with
      | zero => rfl
      | succ k => exact ih _ k

section Cons

variable {log} {event : Event}

theorem storing_cons_of_hasRoom (hroom : Call.HasRoom { log, event }) :
    log.storing (event :: events) =
      { log, event } :: (Call.outcome { log, event }).1.storing events :=
  List.filter_cons_of_pos (decide_eq_true hroom)

theorem storing_cons_of_not_hasRoom (hroom : ¬ Call.HasRoom { log, event }) :
    log.storing (event :: events) = (Call.outcome { log, event }).1.storing events :=
  List.filter_cons_of_neg (by rwa [decide_eq_true_eq])

end Cons

/-- A run appends the entries of the calls that find room, with the readings of the clock in turn,
and takes as many readings. -/
theorem recordAll_spec :
    (log.recordAll events).entries = log.entries ++
      ((log.storing events).zipIdx log.clock.taken).map (fun (call, k) =>
        call.entry (log.clock.reading k)) ∧
    (log.recordAll events).clock =
      { log.clock with taken := log.clock.taken + (log.storing events).length } := by
  induction events generalizing log with
  | nil => exact ⟨(List.append_nil _).symm, rfl⟩
  | cons event events ih =>
      obtain ⟨hentries, hclock⟩ := ih (Call.outcome { log, event }).1
      rw [recordAll, hentries, hclock]
      by_cases hroom : Call.HasRoom { log, event }
      · rw [storing_cons_of_hasRoom events hroom, Call.entries_outcome hroom,
          Call.clock_outcome hroom, List.append_assoc]
        exact ⟨rfl, congrArg (Clock.mk log.clock.reading) (Nat.add_right_comm _ 1 _)⟩
      · rw [storing_cons_of_not_hasRoom events hroom, Call.outcome_of_not_hasRoom _ hroom]
        exact ⟨rfl, rfl⟩

/-- What a run costs is what its calls cost together. -/
theorem recordAll_pays :
    log.heap.Pays ((log.calls events).map Call.cost).sum (log.recordAll events).heap := by
  induction events generalizing log with
  | nil => exact .nothing log.heap
  | cons event events ih =>
      rw [calls, List.map_cons, List.sum_cons]
      exact (Call.pays_cost { log, event }).trans (ih _)

/-- Entries stay where they are when more is recorded. -/
theorem entries_recordAll_prefix (k : ℕ) :
    (log.recordAll (events.take k)).entries <+: (log.recordAll events).entries := by
  conv_rhs => rw [← List.take_append_drop k events, recordAll_append]
  rw [((log.recordAll (events.take k)).recordAll_spec _).1]
  exact List.prefix_append ..

/-- A clock that does not go back stamps the entries in order. -/
theorem pairwise_milliseconds (hempty : log.entries = [])
    (hclock : Monotone log.clock.reading) :
    (log.recordAll events).entries.Pairwise fun earlier later =>
      earlier.milliseconds ≤ later.milliseconds := by
  rw [(log.recordAll_spec events).1, hempty, List.nil_append, List.pairwise_map,
    List.pairwise_iff_getElem]
  intro i j hi hj hij
  simp only [List.getElem_zipIdx, Call.entry]
  exact hclock (by omega)

/-- A run on a budget finds a budget at every call. -/
theorem exists_budget_of_mem_calls {b : Budget} (hheap : log.heap = .budget b) {call : Call}
    (hcall : call ∈ log.calls events) : ∃ found, call.log.heap = .budget found := by
  obtain ⟨k, hk⟩ := List.mem_iff_getElem?.mp hcall
  rw [getElem?_calls, Option.map_eq_some_iff] at hk
  obtain ⟨event, -, rfl⟩ := hk
  obtain ⟨found, hfound, -⟩ := log.recordAll_pays (events.take k) b hheap
  exact ⟨found, hfound⟩

/-- **What a run leaves in a log.** The log has, in order, one entry for each call that finds the 56
bytes of an entry in the budget, and none for the others; what is recorded later leaves the entries
before it alone. An entry has the file and the line of its call and the next reading of the clock,
which is not read for other calls. Its message is what could be allocated from the budget when the
entry was paid for: the whole text, with the arguments that the heap allows, or nothing. A call
without room changes nothing of the log but the number of failures. What remains of the budget and
what entries, slots and messages cost make up the budget of the start. -/
theorem recordAll_on_budget (dialect : Dialect) (clock : Clock) (b : Budget)
    (events : List Event) :
    let start : EventLog := { dialect, clock, heap := .budget b }
    let behind := start.recordAll events
    let stored := (start.calls events).filter fun call => call.HasRoom
    (∀ k, (start.calls events)[k]? =
      events[k]?.map (Call.mk (start.recordAll (events.take k)))) ∧
    behind.entries = (stored.zipIdx clock.taken).map (fun (call, k) =>
      { file := call.event.file
        line := call.event.line
        milliseconds := clock.reading k
        message := call.message }) ∧
    behind.clock = { clock with taken := clock.taken + stored.length } ∧
    (∀ k, (start.recordAll (events.take k)).entries <+: behind.entries) ∧
    (Monotone clock.reading → behind.entries.Pairwise fun earlier later =>
      earlier.milliseconds ≤ later.milliseconds) ∧
    (∀ call ∈ start.calls events, ∃ found : Budget, call.log.heap = .budget found ∧
      (call.HasRoom ↔ 56 ≤ found.remaining) ∧
      if call.HasRoom then
        call.afterEntry = .budget { found with remaining := found.remaining - 56 } ∧
        call.message =
          if call.afterSlots.GrantsText call.text.length then call.text else []
      else
        call.outcome =
          ({ call.log with heap := .budget { found with failures := found.failures + 1 } },
            if call.event.errors.depth < ErrorState.maxDepth then call.event.errors
            else call.event.errors.clear)) ∧
    ∃ rest : Budget, behind.heap = .budget rest ∧
      rest.remaining + ((start.calls events).map Call.cost).sum = b.remaining := by
  intro start behind stored
  obtain ⟨hentries, hclock⟩ := start.recordAll_spec events
  refine ⟨start.getElem?_calls events, hentries, hclock,
    start.entries_recordAll_prefix events, start.pairwise_milliseconds events rfl, ?_,
    start.recordAll_pays events b rfl⟩
  intro call hcall
  obtain ⟨found, hfound⟩ := start.exists_budget_of_mem_calls events rfl hcall
  have hroom := Call.hasRoom_budget hfound
  have hentry := Call.afterEntry_budget hfound
  refine ⟨found, hfound, hroom, ?_⟩
  by_cases hcan : call.HasRoom
  · rw [if_pos (hroom.mp hcan)] at hentry
    rw [if_pos hcan]
    exact ⟨hentry, call.message_eq⟩
  · rw [if_neg (hroom.not.mp hcan)] at hentry
    rw [if_neg hcan]
    refine Prod.ext ?_ call.outcome_snd
    rw [call.outcome_of_not_hasRoom hcan, hentry]

/-- An event stored whole, one without its message, one whole again and one dropped. -/
theorem recordAll_on_budget_exhausted :
    let clock : Clock := { reading := fun k => 10 * k }
    let start : EventLog := { dialect := .plain, clock, heap := .budget { remaining := 200 } }
    let event := fun line format arguments =>
      ({ errors := {}, file := "boot", line, format, arguments } : Event)
    let events := [event 1 (textBytes "init %s") [.ofText "mm"],
      event 2 (textBytes "%300d") [.int 7], event 3 (textBytes "ab") [],
      event 4 (textBytes "lost") []]
    Monotone clock.reading ∧
    (start.recordAll events).entries =
      [{ file := "boot", line := 1, milliseconds := 0, message := textBytes "init mm" },
        { file := "boot", line := 2, milliseconds := 10, message := [] },
        { file := "boot", line := 3, milliseconds := 20, message := textBytes "ab" }] ∧
    (start.recordAll events).entries.Pairwise (fun earlier later =>
      earlier.milliseconds ≤ later.milliseconds) ∧
    ∃ call ∈ start.calls events, ¬ call.HasRoom ∧
      call.outcome.1.entries = call.log.entries := by
  intro clock start event events
  have hclock : Monotone clock.reading := fun _ _ h => Nat.mul_le_mul_left 10 h
  obtain ⟨hcalls, hentries, -, -, hordered, heach, -⟩ :=
    recordAll_on_budget .plain clock { remaining := 200 } events
  have hlast := List.mem_of_getElem? (hcalls 3)
  have hdropped : ¬ Call.HasRoom
      { log := start.recordAll (events.take 3), event := event 4 (textBytes "lost") [] } := by
    decide +kernel
  obtain ⟨found, -, -, houtcome⟩ := heach _ hlast
  rw [if_neg hdropped] at houtcome
  refine ⟨hclock, ?_, hordered hclock, _, hlast, hdropped, ?_⟩
  · rw [hentries]
    decide +kernel
  · rw [houtcome]

end EventLog
end BoundedFormat
