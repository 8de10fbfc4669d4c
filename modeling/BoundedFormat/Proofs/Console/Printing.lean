import BoundedFormat.Console.Printer
import BoundedFormat.Proofs.Refusal

/-!
# What a printer shows

A message is written at once: all of it, if it fits the scratch buffer or memory is granted for it,
and otherwise its start with dots behind it. What the scratch buffer held before is never shown.
Over any run of requests the console sees the same of two printers, whatever they have printed or
saved before, if their heaps give the same answers, in whatever way the heaps come to them.
-/

namespace BoundedFormat

open ArgumentList (inlineSlots)

/-! ## Answers of a heap -/

namespace Heap

/-- What a heap answers when a call asks for so many slots. Slots at hand are not asked for. -/
def slotAnswers (heap : Heap) (dialect : Dialect) (count : ℕ) : List Bool :=
  if count ≤ inlineSlots then [] else [(heap.request count dialect.slotBytes).1]

/-- What a heap answers when room for a message is asked for. A message that fits the scratch buffer
needs none, and for one that no counter shows none is asked. -/
def messageAnswers (heap : Heap) (length : ℕ) : List Bool :=
  if 255 < length ∧ length < maxLength then [(heap.request (length + 1) 1).1] else []

variable {heap other : Heap} {dialect : Dialect} {count length : ℕ} {later later' : List Bool}

/-- Heaps that answer alike let a call see the same arguments. -/
theorem allowed_congr
    (h : heap.slotAnswers dialect count ++ later = other.slotAnswers dialect count ++ later')
    (arguments : List Argument) :
    heap.allowed dialect count arguments = other.allowed dialect count arguments ∧
      later = later' := by
  by_cases hcount : count ≤ inlineSlots
  · simp only [slotAnswers, if_pos hcount, List.nil_append] at h
    have hgranted : ∀ any : Heap, any.GrantsSlots dialect count := fun _ => .inl hcount
    rw [allowed, allowed, if_pos (hgranted heap), if_pos (hgranted other)]
    exact ⟨rfl, h⟩
  · simp only [slotAnswers, if_neg hcount, List.singleton_append, List.cons.injEq] at h
    simp only [allowed, GrantsSlots, h.1]
    exact ⟨rfl, h.2⟩

/-- Heaps that answer alike grant the same messages. -/
theorem grantsText_congr
    (h : heap.messageAnswers length ++ later = other.messageAnswers length ++ later') :
    (length ≤ 255 ∨ heap.GrantsText length ↔ length ≤ 255 ∨ other.GrantsText length) ∧
      later = later' := by
  by_cases hasked : 255 < length ∧ length < maxLength
  · simp only [messageAnswers, if_pos hasked, List.singleton_append, List.cons.injEq] at h
    simp only [GrantsText, h.1, h.2, and_self]
  · -- A length that is not asked about decides the matter by itself.
    simp only [messageAnswers, if_neg hasked, List.nil_append] at h
    refine ⟨?_, h⟩
    simp only [GrantsText]
    omega

end Heap

namespace Console

/-! ## One message -/

namespace Printer

/-- The whole text of a message, with the arguments that the heap allows. -/
def message (p : Printer) (format : Bytes) (arguments : List Argument) : Bytes :=
  (formatOutput p.dialect .system format
    (p.heap.allowed p.dialect (countArguments p.dialect format) arguments)).1.toBytes

/-- The heap when the slots of a message have been asked for. -/
def rest (p : Printer) (format : Bytes) : Heap :=
  p.heap.afterSlots p.dialect (countArguments p.dialect format)

/-- A text that does not fit the scratch buffer is shortened there as it would be by itself. -/
theorem shortened_terminated {text scratch : Bytes} (htext : 255 < text.length)
    (hscratch : scratch.length = scratchSize) :
    shortened (terminated text scratch) = text.take 252 ++ dots := by
  have hdots : scratchSize - 1 - dots.length = 252 := by decide
  rw [shortened, hdots, take_terminated (by omega) (by rw [hscratch]; decide)]

/-- What one message does to the console and to its printer. -/
theorem print_spec (p : Printer) (format : Bytes) (arguments : List Argument) :
    let text := p.message format arguments
    let printed := p.print format arguments
    printed.length = saturate text.length ∧
    printed.events =
      [.write (if text.length ≤ 255 ∨ (p.rest format).GrantsText text.length then text
        else text.take 252 ++ dots)] ∧
    printed.printer.heap =
      (if text.length ≤ 255 then p.rest format else (p.rest format).afterText text.length) ∧
    printed.printer.errors =
      (if text.length ≤ 255 ∨ (p.rest format).GrantsText text.length then p.errors
        else p.errors.clear) ∧
    printed.printer.dialect = p.dialect := by
  intro text printed
  rcases hcall : formatOutput p.dialect p.heap format arguments with ⟨o, rest⟩
  have htext : o.toBytes = text := by
    have hbytes := toBytes_formatOutput_system p.dialect p.heap format arguments
    rwa [hcall] at hbytes
  have hrest : p.rest format = rest := by
    have hheap := Heap.formatOutput_snd p.dialect p.heap format arguments
    rw [hcall] at hheap
    exact hheap.symm
  have hlength : ∀ buffer, (o.store buffer).length = saturate text.length := by
    intro buffer
    rw [length_store_eq, htext]
  -- A message leaves by way of the scratch buffer, of a buffer of its own, or with dots.
  by_cases hfits : text.length ≤ 255
  · have hcount : saturate text.length = text.length :=
      saturate_of_le (Nat.le_trans hfits (by decide))
    have hshort : text.length < scratchSize := Nat.lt_succ_of_le hfits
    have hshown := take_buffer_store htext (by rwa [p.scratch_length])
    simp only [printed, print, hcall, hrest, hlength, hcount, if_pos hshort, hshown,
      if_pos hfits, if_pos (Or.inl hfits), withScratch, and_self]
  · have hlong : ¬ saturate text.length < scratchSize := by
      rw [saturate, scratchSize, maxLength]
      omega
    have hrequest := rest.requestText_saturate text.length
    by_cases hgranted : rest.GrantsText text.length
    · have hcount : saturate text.length = text.length :=
        saturate_of_le (Nat.le_of_lt hgranted.1)
      have hshown := take_buffer_store_exact htext
      rw [hcount, if_pos hgranted] at hrequest
      rw [hcount] at hlong
      simp only [printed, print, hcall, hrest, hlength, hcount, if_neg hlong, hrequest, hshown,
        if_neg hfits, if_pos (Or.inr hgranted), withScratch, and_self]
    · have hshown : shortened (o.store p.scratch).buffer = text.take 252 ++ dots := by
        rw [buffer_store_eq, htext, shortened_terminated (by omega) p.scratch_length]
      rw [if_neg hgranted] at hrequest
      simp only [printed, print, hcall, hrest, hlength, if_neg hlong, hrequest, hshown,
        if_neg hfits, if_neg (not_or_intro hfits hgranted), withScratch, and_self]

end Printer

/-! ## Runs -/

/-- Something asked of a printer. -/
inductive Request
  | print (format : Bytes) (arguments : List Argument)
  | line (text : Bytes)
  | refresh

namespace Printer

/-- Does what is asked. -/
def serve (p : Printer) : Request → Printer × List Event
  | .print format arguments =>
    let printed := p.print format arguments
    (printed.printer, printed.events)
  | .line text => (p, lineEvents text)
  | .refresh => (p, [.refresh])

/-- Does one thing after the other. -/
def serveAll (p : Printer) : List Request → Printer × List Event
  | [] => (p, [])
  | request :: requests =>
    let served := p.serve request
    let run := served.1.serveAll requests
    (run.1, served.2 ++ run.2)

/-- What the heap answers while a printer does what is asked, in order. Only messages make it ask:
for their slots first, then for room. -/
def answers (p : Printer) : Request → List Bool
  | .print format arguments =>
    p.heap.slotAnswers p.dialect (countArguments p.dialect format) ++
      (p.rest format).messageAnswers (p.message format arguments).length
  | _ => []

/-- What the heap answers while a printer does one thing after the other. -/
def answersAll (p : Printer) : List Request → List Bool
  | [] => []
  | request :: requests => p.answers request ++ (p.serve request).1.answersAll requests

theorem dialect_serve (p : Printer) (request : Request) :
    (p.serve request).1.dialect = p.dialect := by
  cases request with
  | print format arguments => exact (p.print_spec format arguments).2.2.2.2
  | line text | refresh => rfl

variable {p q : Printer}

/-- Printers whose heaps answer one request alike do the same about it, and have the same answers
left. -/
theorem serve_congr {request : Request} {later later' : List Bool}
    (hdialect : p.dialect = q.dialect)
    (h : p.answers request ++ later = q.answers request ++ later') :
    (p.serve request).2 = (q.serve request).2 ∧ later = later' := by
  cases request with
  | print format arguments =>
      obtain ⟨-, hp, -⟩ := p.print_spec format arguments
      obtain ⟨-, hq, -⟩ := q.print_spec format arguments
      simp only [answers, List.append_assoc, hdialect] at h
      obtain ⟨hallowed, htexts⟩ := Heap.allowed_congr h arguments
      have hmessage : p.message format arguments = q.message format arguments := by
        rw [message, message, hdialect, hallowed]
      rw [hmessage] at hp htexts
      obtain ⟨hgranted, hlater⟩ := Heap.grantsText_congr htexts
      refine ⟨?_, hlater⟩
      change (p.print format arguments).events = (q.print format arguments).events
      rw [hp, hq]
      simp only [hgranted]
  | line text | refresh => exact ⟨rfl, h⟩

theorem serveAll_congr {requests : List Request} (hdialect : p.dialect = q.dialect)
    (h : p.answersAll requests = q.answersAll requests) :
    (p.serveAll requests).2 = (q.serveAll requests).2 := by
  induction requests generalizing p q with
  | nil => rfl
  | cons request requests ih =>
      obtain ⟨hevents, hlater⟩ := serve_congr hdialect h
      have hdialects : (p.serve request).1.dialect = (q.serve request).1.dialect := by
        rw [dialect_serve, dialect_serve, hdialect]
      simp only [serveAll, hevents, ih hdialects hlater]

/-- **A printer shows each message at once, and of earlier ones nothing.** A message is the output
of its format with the arguments that the heap allows. It is written whole, if 255 bytes hold it or
the heap, after the slots, has room for it and a NUL; otherwise 252 bytes of it and dots are written
and the pending error is forgotten. Room is not asked for what fits. Two printers do the same about
any requests to which their heaps give the same answers. -/
theorem prints_by_answers :
    (∀ (p : Printer) (format : Bytes) (arguments : List Argument),
      let count := countArguments p.dialect format
      let allowed := p.heap.allowed p.dialect count arguments
      let text := (formatOutput p.dialect .system format allowed).1.toBytes
      let rest := p.heap.afterSlots p.dialect count
      let printed := p.print format arguments
      printed.length = saturate text.length ∧
      printed.events =
        [.write (if text.length ≤ 255 ∨ rest.GrantsText text.length then text
          else text.take 252 ++ textBytes "...")] ∧
      printed.printer.heap =
        (if text.length ≤ 255 then rest else rest.afterText text.length) ∧
      printed.printer.errors.pending =
        (if text.length ≤ 255 ∨ rest.GrantsText text.length then p.errors.pending else none) ∧
      printed.printer.errors.saved = p.errors.saved) ∧
    ∀ (p q : Printer) (requests : List Request), p.dialect = q.dialect →
      p.answersAll requests = q.answersAll requests →
      (p.serveAll requests).2 = (q.serveAll requests).2 := by
  constructor
  · intro p format arguments count allowed text rest printed
    obtain ⟨hlength, hevents, hheap, herrors, -⟩ := p.print_spec format arguments
    refine ⟨hlength, hevents, hheap, ?_, ?_⟩
    · rw [herrors]
      exact apply_ite ErrorState.pending ..
    · rw [herrors, apply_ite ErrorState.saved]
      exact ite_self _
  · intro p q requests hdialect hanswers
    exact serveAll_congr hdialect hanswers

/-- One printer is given its answers by the allocator, the other has a budget besides. A message is
refused and then granted; then slots are refused, and room for the longer text is granted. -/
theorem prints_by_answers_refused :
    let answers := [false, true, false, true]
    let p := fresh .plain (.answering answers)
    let q : Printer :=
      { dialect := .plain
        heap :=
          { allocator := .answering (answers ++ [true])
            budget? := some { remaining := 1700, failures := 3 } }
        errors := { pending := some .badNumber }
        scratch := List.replicate scratchSize 1
        scratch_length := List.length_replicate }
    let long := textBytes "%300d"
    let many := long ++ (List.replicate 32 (textBytes "%d")).flatten
    let requests := [.print long [.int 7], .line (textBytes "x"), .print long [.int 7], .refresh,
      .print many (List.replicate 33 (.int 7)), .print (textBytes "%d") []]
    p.dialect = q.dialect ∧ p.answersAll requests = q.answersAll requests ∧
    p.answersAll requests = answers ∧
    (q.serveAll requests).2 =
      [.write (List.replicate 252 (ascii ' ') ++ textBytes "..."), .write (textBytes "x"),
        .write (textBytes "\n"), .write (List.replicate 299 (ascii ' ') ++ textBytes "7"),
        .refresh, .write (List.replicate 299 (ascii ' ') ++ List.replicate 32 (ascii '7')),
        .write []] := by
  intro answers p q long many requests
  have hanswers : p.answersAll requests = q.answersAll requests := by decide +kernel
  refine ⟨rfl, hanswers, by decide +kernel, ?_⟩
  rw [← prints_by_answers.2 p q requests rfl hanswers]
  decide +kernel

end Printer
end Console
end BoundedFormat
