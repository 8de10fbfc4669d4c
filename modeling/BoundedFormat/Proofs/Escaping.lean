import BoundedFormat.Proofs.Dependence
import BoundedFormat.Proofs.Directive.Joining
import BoundedFormat.Proofs.Directive.Plain
import BoundedFormat.Proofs.Meaning

/-!
# Text made into a format

`escape` doubles the percent signs of a text. What comes of it is a format of percent directives and
of runs of text, and shows the text: behind every doubled sign the split stands where it would stand
without it, whatever the text goes on with. The main statement is about all that a call gives back,
and about a text that an argument is put into the middle of.
-/

namespace BoundedFormat

/-- A text with every percent sign doubled. -/
def escape (text : Bytes) : Bytes :=
  text.flatMap fun b => if b = ascii '%' then [b, b] else [b]

/-- The directive of one letter, with nothing before it. -/
def letterText (letter : UInt8) : DirectiveText where
  position := none
  field := { minus := false, width := [], precision := none }
  length := .none
  letter := letter
  second := none

/-- The pieces of an escaped text, with those of what follows it. -/
def escapedPieces : (text : Bytes) → (next : List Piece) → List Piece
  | [], next => next
  | b :: text, next =>
    if b = ascii '%' then .directive (letterText b).spec [b, b] :: escapedPieces text next
    else mergeLiteral [b] (escapedPieces text next)

variable {dialect : Dialect}

/-! ## The split of an escaped text -/

theorem escape_cons (b : UInt8) (text : Bytes) :
    escape (b :: text) = (if b = ascii '%' then [b, b] else [b]) ++ escape text := rfl

theorem zero_notMem_escape {text : Bytes} (hnul : 0 ∉ text) : 0 ∉ escape text := by
  intro hmem
  obtain ⟨b, hb, hzero⟩ := List.mem_flatMap.mp hmem
  have heq : 0 = b := by
    split at hzero
    · simpa using hzero
    · simpa using hzero
  exact hnul (heq ▸ hb)

/-- A directive of one letter that no other goes on with is over there, whatever follows it. -/
theorem endsBefore_letterText {letter : UInt8} (hdigit : isDigit letter = false)
    (hfree : letter ∉ textBytes "-.$hlz")
    (hsingle : ∀ c, (Conversion.ofLetter letter).extended? c = none) (next : Option UInt8) :
    (letterText letter).EndsBefore dialect next := by
  have hplain : (letterText letter).Plain :=
    { position_digits := by simp [letterText]
      width_digits := by simp [letterText]
      precision_digits := by simp [letterText]
      before_z := by simp [letterText]
      letter_digit := hdigit
      letter_free := hfree
      no_second := rfl }
  apply hplain.endsBefore
  rintro c - ⟨-, hextended⟩
  rw [letterText, hsingle c] at hextended
  cases hextended

/-- Behind an escaped text the split goes on with what follows. -/
theorem Splits.escape_append {s : Bytes} {next : List Piece} (h : Splits dialect s next)
    (text : Bytes) : Splits dialect (escape text ++ s) (escapedPieces text next) := by
  induction text with
  | nil => exact h
  | cons b text ih =>
      rw [escape_cons, escapedPieces, List.append_assoc]
      by_cases hb : b = ascii '%'
      · have hends : (letterText (ascii '%')).EndsBefore dialect (escape text ++ s).head? :=
          endsBefore_letterText (by decide) (by decide) (fun _ => rfl) _
        rw [if_pos hb, if_pos hb, hb]
        exact .directive hends ih
      · rw [if_neg hb, if_neg hb]
        exact ih.mergeLiteral hb (by simp)

theorem pieces_escape_append {text : Bytes} (hnul : 0 ∉ text) (format : Bytes) :
    pieces dialect (escape text ++ format) = escapedPieces text (pieces dialect format) := by
  rw [pieces, untilNul_append (zero_notMem_escape hnul), splitPieces_eq_iff]
  exact (splits_splitPieces dialect (untilNul format)).escape_append text

theorem filterMap_escapedPieces (text : Bytes) (next : List Piece) :
    (escapedPieces text next).filterMap Piece.argumentSpec? =
      next.filterMap Piece.argumentSpec? := by
  induction text with
  | nil => rfl
  | cons b text ih =>
      rw [escapedPieces]
      by_cases hb : b = ascii '%'
      · rw [if_pos hb, hb, List.filterMap_cons_none rfl, ih]
      · rw [if_neg hb, filterMap_mergeLiteral, ih]

/-- Escaped pieces spell the text, and no directive of theirs is numbered. -/
theorem spell_escapedPieces (shows : ℕ → FormatSpec → Bytes) (ordinal : ℕ) (text : Bytes)
    (next : List Piece) :
    spell shows ordinal (escapedPieces text next) = text ++ spell shows ordinal next := by
  induction text with
  | nil => rfl
  | cons b text ih =>
      rw [escapedPieces]
      by_cases hb : b = ascii '%'
      · rw [if_pos hb, hb, spell_cons_none rfl, ih]
        rfl
      · rw [if_neg hb, spell_mergeLiteral, ih]
        rfl

/-! ## What an escaped text shows -/

section Shown

variable {heap : Heap} {text : Bytes} (hnul : 0 ∉ text)

include hnul

theorem argumentSpecs_escape_append (format : Bytes) :
    argumentSpecs dialect (escape text ++ format) = argumentSpecs dialect format := by
  rw [argumentSpecs, pieces_escape_append hnul, filterMap_escapedPieces]
  rfl

theorem countArguments_escape_append (format : Bytes) :
    countArguments dialect (escape text ++ format) = countArguments dialect format := by
  rw [countArguments, argumentSpecs_escape_append hnul]
  rfl

/-- **An escaped text goes before any format.** The two together show the text and then what the
format shows of the same arguments. -/
theorem toBytes_formatOutput_escape_append (format : Bytes) (arguments : List Argument) :
    (formatOutput dialect heap (escape text ++ format) arguments).1.toBytes =
      text ++ (formatOutput dialect heap format arguments).1.toBytes := by
  have hslots : (ArgumentList.collect dialect (escape text ++ format) arguments heap).1.get? =
      (ArgumentList.collect dialect format arguments heap).1.get? := by
    funext index
    rw [ArgumentList.get?_collect, ArgumentList.get?_collect, argumentSpecs_escape_append hnul,
      countArguments_escape_append hnul]
  rw [toBytes_formatOutput, toBytes_formatOutput, pieces_escape_append hnul, spell_escapedPieces]
  simp only [ArgumentList.read?, hslots]

theorem countArguments_escape : countArguments dialect (escape text) = 0 := by
  have hempty : countArguments dialect [] = 0 := by
    rw [countArguments, argumentSpecs, pieces, untilNul, List.takeWhile_nil, splitPieces]
    rfl
  rw [← List.append_nil (escape text), countArguments_escape_append hnul, hempty]

theorem toBytes_formatOutput_escape (arguments : List Argument) :
    (formatOutput dialect heap (escape text) arguments).1.toBytes = text := by
  have hempty : (formatOutput dialect heap [] arguments).1.toBytes = [] := by
    rw [toBytes_formatOutput, pieces, untilNul, List.takeWhile_nil, splitPieces]
    rfl
  rw [← List.append_nil (escape text), toBytes_formatOutput_escape_append hnul, hempty,
    List.append_nil]

/-! ## A string before an escaped text -/

theorem pieces_string_escape :
    pieces dialect (textBytes "%s" ++ escape text) =
      .directive (letterText (ascii 's')).spec (textBytes "%s") :: escapedPieces text [] := by
  have hkept : untilNul (textBytes "%s" ++ escape text) = textBytes "%s" ++ escape text := by
    apply untilNul_eq_self
    rw [List.mem_append, not_or]
    exact ⟨by decide, zero_notMem_escape hnul⟩
  have hends : (letterText (ascii 's')).EndsBefore dialect (escape text ++ []).head? :=
    endsBefore_letterText (by decide) (by decide) (fun _ => rfl) _
  have hsplits := Splits.directive hends (Splits.nil.escape_append text)
  rw [List.append_nil] at hsplits
  rw [pieces, hkept, splitPieces_eq_iff]
  exact hsplits

theorem argumentSpecs_string_escape :
    argumentSpecs dialect (textBytes "%s" ++ escape text) = [(letterText (ascii 's')).spec] := by
  have hspec : (Piece.directive (letterText (ascii 's')).spec (textBytes "%s")).argumentSpec? =
      some (letterText (ascii 's')).spec := rfl
  rw [argumentSpecs, pieces_string_escape hnul, List.filterMap_cons_some hspec,
    filterMap_escapedPieces]
  rfl

theorem toBytes_formatOutput_string_escape (shown : Reference Bytes) :
    (formatOutput dialect heap (textBytes "%s" ++ escape text) [.str (some shown)]).1.toBytes =
      untilNul shown.target ++ text := by
  have hmeaning : (letterText (ascii 's')).spec.meaning (.str (some shown)) =
      untilNul shown.target := by
    have hconversion : (letterText (ascii 's')).spec.conversion = .str := by decide
    rw [FormatSpec.meaning, hconversion]
    exact (FormatSpec.inField_of_width rfl _ _).trans (FormatSpec.cut_of_precision rfl _)
  rw [toBytes_formatOutput_single (argumentSpecs_string_escape hnul) rfl,
    pieces_string_escape hnul, spell_cons_some rfl, spell_escapedPieces, hmeaning]
  exact congrArg (untilNul shown.target ++ ·) (List.append_nil text)

end Shown

/-! ## All that a call gives back -/

/-- A call yields a text. It measures the text as far as it can be counted, stores the front that a
buffer has room for, and gives all of it where an allocation is granted. The heap is asked for the
room of an allocated text and for nothing else. -/
structure Yields (dialect : Dialect) (heap : Heap) (format : Bytes) (arguments : List Argument)
    (text : Bytes) : Prop where
  measured : formatLength dialect heap format arguments = (saturate text.length, heap)
  stored : ∀ buffer : Bytes, formatInto dialect heap buffer format arguments =
    ({ length := saturate text.length, buffer := terminated text buffer }, heap)
  allocated : ∀ errors : ErrorState, formatAllocate dialect heap errors format arguments =
    if heap.GrantsText text.length then
      { result := .ok text, heap := heap.afterText text.length, errors }
    else
      { result := .error .outOfMemory, heap := heap.afterText text.length,
        errors := errors.pop.2 }

/-- A call without more slots than are at hand yields its output. -/
theorem Yields.of_output {heap : Heap} {format text : Bytes} {arguments : List Argument}
    (houtput : (formatOutput dialect heap format arguments).1.toBytes = text)
    (hinline : countArguments dialect format ≤ ArgumentList.inlineSlots) :
    Yields dialect heap format arguments text := by
  have hheap : (formatOutput dialect heap format arguments).2 = heap := by
    rw [Heap.formatOutput_snd, Heap.afterSlots, if_pos hinline]
  refine ⟨Prod.ext ?_ hheap, fun buffer => Prod.ext ?_ hheap, formatAllocate_eq houtput hheap⟩
  · rw [formatLength_fst, houtput]
  · rw [← houtput]
    exact store_eq _ buffer

/-- **An escaped text is a format of the text.** Every call with it, in both dialects, on every heap
and whatever its arguments are, yields the text: it has no directive that reads an argument, and asks
for no slots. With `%s` and another escaped text behind it, it yields the two texts with the string
of the argument between them, up to the NUL of this string. -/
theorem escape_yields_text {text : Bytes} (hnul : 0 ∉ text) (dialect : Dialect) (heap : Heap) :
    (∀ arguments, Yields dialect heap (escape text) arguments text) ∧
    (text.length ≤ maxLength →
      ∀ arguments, (formatLength dialect heap (escape text) arguments).1 = text.length) ∧
    countArguments dialect (escape text) = 0 ∧
    (∀ index, ¬ ReadsArgument dialect (escape text) index) ∧
    ∀ behind : Bytes, 0 ∉ behind → ∀ shown : Reference Bytes,
      Yields dialect heap (escape text ++ textBytes "%s" ++ escape behind) [.str (some shown)]
        (text ++ untilNul shown.target ++ behind) := by
  have hcount : countArguments dialect (escape text) = 0 := countArguments_escape hnul
  have hyields : ∀ arguments, Yields dialect heap (escape text) arguments text := by
    intro arguments
    apply Yields.of_output (toBytes_formatOutput_escape hnul arguments)
    rw [hcount]
    exact Nat.zero_le _
  refine ⟨hyields, ?_, hcount, ?_, ?_⟩
  · intro hlength arguments
    rw [(hyields arguments).measured, saturate_of_le hlength]
  · rintro index ⟨ordinal, hordinal, -⟩
    rw [hcount] at hordinal
    exact Nat.not_lt_zero ordinal hordinal
  · intro behind hbehind shown
    rw [List.append_assoc, List.append_assoc]
    apply Yields.of_output
    · rw [toBytes_formatOutput_escape_append hnul, toBytes_formatOutput_string_escape hbehind]
    · rw [countArguments_escape_append hnul, countArguments, argumentSpecs_string_escape hbehind]
      decide

theorem escape_yields_text_seams :
    let text := textBytes "100%%2$-s"
    let behind := textBytes "$d%"
    let heap := Heap.budget { remaining := 12 }
    0 ∉ text ∧ 0 ∉ behind ∧ escape text = textBytes "100%%%%2$-s" ∧
    (formatInto .firmware heap [1, 2, 3, 4, 5, 6, 7] (escape text) [.int 5]).1 =
      { length := 9, buffer := textBytes "100%%2" ++ [0] } ∧
    (formatLength .plain heap (escape text) [.int 5]).1 = 9 ∧
    (formatAllocate .plain heap {} (escape text ++ textBytes "%s" ++ escape behind)
      [.str (some { target := textBytes "%n" ++ [0, 1] })]).result =
      .error .outOfMemory ∧
    (formatInto .plain heap (List.replicate 15 1)
      (escape text ++ textBytes "%s" ++ escape behind)
      [.str (some { target := textBytes "%n" ++ [0, 1] })]).1 =
      { length := 14, buffer := textBytes "100%%2$-s%n$d%" ++ [0] } := by
  intro text behind heap
  have htext : 0 ∉ text := by decide +kernel
  have hbehind : 0 ∉ behind := by decide +kernel
  obtain ⟨hfirmware, -⟩ := escape_yields_text htext .firmware heap
  obtain ⟨-, hlength, -, -, hstring⟩ := escape_yields_text htext .plain heap
  have hyields := hstring behind hbehind { target := textBytes "%n" ++ [0, 1] }
  refine ⟨htext, hbehind, by decide +kernel, ?_, ?_, ?_, ?_⟩
  · rw [(hfirmware [.int 5]).stored]
    decide +kernel
  · rw [hlength (by decide +kernel)]
    decide +kernel
  · rw [hyields.allocated, if_neg (by decide +kernel)]
  · rw [hyields.stored]
    decide +kernel

end BoundedFormat
