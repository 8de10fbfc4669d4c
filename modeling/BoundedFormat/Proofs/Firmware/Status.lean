import BoundedFormat.Proofs.RoundTrip
import Mathlib.Data.List.Nodup

/-!
# Status words told apart by their text

Two tables name some of the status words, and the others are shown as numbers. `assigned` has both
tables in one, with every name at its word. The main statement is that a `ur` directive without a
field shows different words differently, whatever its length modifier is: no name stands twice in
the tables, none looks like a number, and a number is read back as the word.
-/

namespace BoundedFormat

open Numeral (numeral)

namespace Firmware

/-! ## The tables -/

/-- The names of both tables, each with its word. -/
def assigned : List (String × ℕ) :=
  (warningNames.zipIdx ++ errorNames.zipIdx (2 ^ 63)).filter fun entry => !entry.1.isEmpty

theorem isError_iff (w : Word) : isError w ↔ 2 ^ 63 ≤ w.toNat := by
  rw [isError, BitVec.msb_eq_true_iff_two_mul_ge]
  omega

theorem statusCode_eq (w : Word) : statusCode w = w.toNat % 2 ^ 63 :=
  BitVec.toNat_setWidth 63 w

/-- The table of a status word. -/
def namesFor (w : Word) : List String := if 2 ^ 63 ≤ w.toNat then errorNames else warningNames

theorem statusName?_eq (w : Word) :
    statusName? w = (namesFor w)[w.toNat % 2 ^ 63]?.filter (!·.isEmpty) := by
  rw [statusName?, statusCode_eq, namesFor]
  simp only [isError_iff]

/-- A table is looked up within its length only. -/
theorem statusName?_eq_dite (w : Word) :
    statusName? w =
      if h : w.toNat % 2 ^ 63 < (namesFor w).length then
        if (namesFor w)[w.toNat % 2 ^ 63] = "" then none
        else some (namesFor w)[w.toNat % 2 ^ 63]
      else none := by
  rw [statusName?_eq]
  by_cases h : w.toNat % 2 ^ 63 < (namesFor w).length
  · rw [dif_pos h, List.getElem?_eq_getElem h, Option.filter_some]
    by_cases hempty : (namesFor w)[w.toNat % 2 ^ 63] = ""
    · rw [if_pos hempty, hempty]
      rfl
    · rw [if_neg hempty, if_pos (by simpa only [Bool.not_eq_true', String.isEmpty_eq_false_iff])]
  · rw [dif_neg h, List.getElem?_eq_none (Nat.le_of_not_lt h)]
    rfl

/-- The name of a word is its entry, whichever table that comes from. -/
theorem statusName?_eq_some_iff {w : Word} {name : String} :
    statusName? w = some name ↔ (name, w.toNat) ∈ assigned := by
  rw [statusName?_eq, Option.filter_eq_some_iff, namesFor, assigned, List.mem_filter,
    List.mem_append, List.mk_mem_zipIdx_iff_getElem?, List.mk_mem_zipIdx_iff_le_and_getElem?_sub]
  by_cases h : 2 ^ 63 ≤ w.toNat
  · have hcode : w.toNat % 2 ^ 63 = w.toNat - 2 ^ 63 := by
      have hword := w.isLt
      omega
    have hwarnings : warningNames.length ≤ 2 ^ 63 := by decide
    have hnone : warningNames[w.toNat]? ≠ some name := by
      rw [List.getElem?_eq_none (hwarnings.trans h)]
      exact (Option.some_ne_none name).symm
    rw [if_pos h, hcode, or_iff_right hnone, and_iff_right h]
  · rw [if_neg h, Nat.mod_eq_of_lt (Nat.lt_of_not_le h), or_iff_left fun herror => h herror.1]

theorem nodup_assigned : (assigned.map fun entry => textBytes entry.1).Nodup := by
  decide +kernel

/-- No name of the tables looks like a number, and none is cut short. -/
theorem textBytes_assigned : ∀ entry ∈ assigned,
    ¬ hexMarker <+: textBytes entry.1 ∧ 0 ∉ textBytes entry.1 := by
  decide +kernel

/-- No two words have the same name. -/
theorem eq_of_textBytes_name {v w : Word} {left right : String}
    (hv : statusName? v = some left) (hw : statusName? w = some right)
    (h : textBytes left = textBytes right) : v = w := by
  have hentry := List.inj_on_of_nodup_map nodup_assigned (statusName?_eq_some_iff.mp hv)
    (statusName?_eq_some_iff.mp hw) h
  exact BitVec.eq_of_toNat_eq (Prod.ext_iff.mp hentry).2

end Firmware

open Firmware

/-! ## The text of a status word -/

/-- The text of a status word that is put into no field. -/
def statusText (w : Word) : Bytes :=
  (statusName? w).elim (hexMarker ++ numeral 16 w.toNat) textBytes

theorem statusText_of_name {w : Word} {name : String} (h : statusName? w = some name) :
    statusText w = textBytes name := by
  rw [statusText, h]
  rfl

theorem statusText_of_none {w : Word} (h : statusName? w = none) :
    statusText w = hexMarker ++ numeral 16 w.toNat := by
  rw [statusText, h]
  rfl

/-- A word without a name is read back from its text. -/
theorem read_statusText {w : Word} (h : statusName? w = none) :
    Numeral.read 0 (statusText w) =
      { value := w, consumed := (statusText w).length, status := .success } := by
  rw [statusText_of_none h]
  exact Numeral.read_whole (by rintro b ⟨⟩; rfl) (Numeral.chooseBase_marker (.inl rfl) _)
    (by decide) (by decide) (Numeral.denotes_numeral (by decide) (by decide) w)

/-- Only the words without a name are shown as numbers. -/
theorem marked_statusText_iff (w : Word) :
    hexMarker <+: statusText w ↔ statusName? w = none := by
  cases hname : statusName? w with
  | some name =>
      rw [statusText_of_name hname]
      have hentry := textBytes_assigned _ (statusName?_eq_some_iff.mp hname)
      simp [hentry.1]
  | none =>
      rw [statusText_of_none hname]
      simp

/-- Status words that are shown alike are equal. -/
theorem statusText_inj {v w : Word} : statusText v = statusText w ↔ v = w := by
  refine ⟨?_, congrArg statusText⟩
  intro h
  have hmarked : statusName? v = none ↔ statusName? w = none := by
    rw [← marked_statusText_iff, ← marked_statusText_iff, h]
  cases hv : statusName? v with
  | none =>
      have hread := read_statusText hv
      rw [h, read_statusText (hmarked.mp hv)] at hread
      exact (congrArg (·.value) hread).symm
  | some left =>
      obtain ⟨right, hw⟩ := Option.ne_none_iff_exists'.mp
        (mt hmarked.mpr (hv ▸ Option.some_ne_none left))
      rw [statusText_of_name hv, statusText_of_name hw] at h
      exact eq_of_textBytes_name hv hw h

/-! ## Directives for status words -/

/-- A directive for a status word reads all of its argument, whatever its length modifier is. -/
theorem FormatSpec.meaning_status {spec : FormatSpec} (hconversion : spec.conversion = .status)
    (hwidth : spec.width = 0) (hprecision : spec.precision = none) (argument : Argument) :
    spec.meaning argument = statusText argument.word := by
  rw [meaning, hconversion]
  cases hname : statusName? argument.word with
  | some name =>
      have hnul := (textBytes_assigned _ (statusName?_eq_some_iff.mp hname)).2
      change spec.inField _ (spec.cut (textBytes name)) = _
      rw [statusText_of_name hname, inField_of_width hwidth, cut_of_precision hprecision]
      exact untilNul_eq_self hnul
  | none =>
      change hexMarker ++ spec.numeralField _ = _
      rw [statusText_of_none hname, numeralField, inField_of_width hwidth]

/-- The directive for a status word without a width or a precision. -/
def statusDirective (minus : Bool) (length : LengthMod) : DirectiveText :=
  { fieldDirective minus [] length (ascii 'u') with second := some (ascii 'r') }

/-- The text of such a format. -/
def statusFormat (minus : Bool) (length : LengthMod) : Bytes :=
  ascii '%' :: (minusText minus ++ length.text ++ textBytes "ur")

theorem toBytes_formatOutput_status (heap : Heap) (minus : Bool) (length : LengthMod)
    (argument : Argument) :
    (formatOutput .firmware heap (statusFormat minus length) [argument]).1.toBytes =
      statusText argument.word := by
  have hwidth : ∀ b ∈ ([] : Bytes), isDigit b := by simp
  have hletter : ascii 'u' ∈ textBytes "duxXp" := by decide
  have hplain : (fieldDirective minus [] length (ascii 'u')).Plain :=
    plain_fieldDirective hwidth minus (fun _ => by decide) hletter
  have hends : (statusDirective minus length).EndsBefore .firmware none :=
    hplain.endsBefore_extended rfl none
  have hnul : 0 ∉ (statusDirective minus length).toBytes := by
    rw [statusDirective, hplain.toBytes_extended, List.mem_append, not_or]
    exact ⟨zero_not_mem_fieldDirective hwidth minus length hletter, by decide⟩
  have hformat : statusFormat minus length = ascii '%' :: (statusDirective minus length).toBytes := by
    cases minus <;> cases length <;> decide
  rw [hformat, toBytes_formatOutput_directive .firmware heap argument hends hnul rfl rfl]
  exact FormatSpec.meaning_status rfl rfl rfl argument

/-- **Status words are told apart by their text.** A `ur` directive without a width or a precision
shows all of a word behind every length modifier, and no two words alike. A word with a name is
shown by it, and no other word has the name; no name begins as a number does. Every other word is a
number that is read back as the word. The table of a word is looked up below its length only,
whatever the code of the word is. -/
theorem status_directive_unambiguous (heap : Heap) :
    let output (minus : Bool) (length : LengthMod) (argument : Argument) : Bytes :=
      (formatOutput .firmware heap (statusFormat minus length) [argument]).1.toBytes
    (∀ minus length argument minus' length' argument',
      output minus length argument = output minus' length' argument' ↔
        argument.word = argument'.word) ∧
    (∀ minus length argument name, statusName? argument.word = some name →
      output minus length argument = textBytes name ∧ ¬ textBytes "0x" <+: textBytes name) ∧
    (∀ v w name, statusName? v = some name → statusName? w = some name → v = w) ∧
    (∀ minus length argument, statusName? argument.word = none →
      output minus length argument = textBytes "0x" ++ numeral 16 argument.word.toNat ∧
      Numeral.read 0 (output minus length argument) =
        { value := argument.word
          consumed := (output minus length argument).length
          status := .success }) ∧
    ∀ w : Word,
      let names := if 2 ^ 63 ≤ w.toNat then errorNames else warningNames
      let code := w.toNat % 2 ^ 63
      statusName? w =
        if h : code < names.length then if names[code] = "" then none else some names[code]
        else none := by
  intro output
  have houtput : ∀ minus length argument,
      output minus length argument = statusText argument.word :=
    toBytes_formatOutput_status heap
  refine ⟨?_, ?_, ?_, ?_, statusName?_eq_dite⟩
  · intro minus length argument minus' length' argument'
    rw [houtput, houtput]
    exact statusText_inj
  · intro minus length argument name hname
    have hentry := textBytes_assigned _ (statusName?_eq_some_iff.mp hname)
    rw [houtput, statusText_of_name hname]
    exact ⟨rfl, hentry.1⟩
  · intro v w name hv hw
    exact eq_of_textBytes_name hv hw rfl
  · intro minus length argument hnone
    rw [houtput]
    exact ⟨statusText_of_none hnone, read_statusText hnone⟩

theorem status_directive_unambiguous_gap :
    let output (length : LengthMod) (w : Word) : Bytes :=
      (formatOutput .firmware .system (statusFormat false length) [.uint w]).1.toBytes
    statusFormat false .z = textBytes "%zur" ∧
    statusName? 0x800000000000000e = some "Not Found" ∧
    statusName? 0x800000000000001d = none ∧
    output .hh 0x800000000000000e = textBytes "Not Found" ∧
    output .z 0x800000000000001d = textBytes "0x800000000000001d" ∧
    Numeral.read 0 (output .z 0x800000000000001d) =
      { value := 0x800000000000001d
        consumed := (output .z 0x800000000000001d).length
        status := .success } ∧
    output .hh 0x7fffffffffffffff ≠ output .ll 0xffffffffffffffff := by
  obtain ⟨happly, hnamed, -, hnumber, -⟩ := status_directive_unambiguous .system
  have hname : statusName? (Argument.uint 0x800000000000000e).word = some "Not Found" := by
    decide +kernel
  have hnone : statusName? (Argument.uint 0x800000000000001d).word = none := by
    decide +kernel
  obtain ⟨hnumeral, hread⟩ := hnumber false .z (.uint 0x800000000000001d) hnone
  refine ⟨by decide, hname, hnone, (hnamed false .hh _ _ hname).1, ?_, hread, ?_⟩
  · exact hnumeral.trans (by decide +kernel)
  · exact mt (happly _ _ _ _ _ _).mp (by decide)

end BoundedFormat
