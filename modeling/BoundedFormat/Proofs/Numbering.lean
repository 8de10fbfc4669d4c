import BoundedFormat.Proofs.Directive.Splitting
import BoundedFormat.Proofs.Meaning

/-!
# Formats with their directives numbered

A format without positions is numbered by writing a position into each directive that reads an
argument. The pieces of the text that comes of this are the old pieces, with the positions in their
directives and nothing else changed. The main statement is that numbering renames arguments: a
numbered format shows of its arguments what the format shows of the arguments in the order of the
positions.
-/

namespace BoundedFormat

open Numeral (numeral)

/-! ## Writing positions -/

/-- A position written behind the percent sign that a directive begins with. -/
def insertPosition (position : ℕ) : Bytes → Bytes
  | [] => []
  | percent :: text => percent :: (numeral 10 position ++ ascii '$' :: text)

/-- A directive with another position, as far as positions are counted. -/
def FormatSpec.atPosition (spec : FormatSpec) (position : ℕ) : FormatSpec :=
  { spec with position := some (saturate position) }

/-- The pieces with positions in their directives, `number k` in that with the number `k`. -/
def numberPieces (number : ℕ → ℕ) : (ordinal : ℕ) → List Piece → List Piece
  | _, [] => []
  | ordinal, piece :: rest =>
    match piece.argumentSpec? with
    | some spec =>
      .directive (spec.atPosition (number ordinal)) (insertPosition (number ordinal) piece.raw) ::
        numberPieces number (ordinal + 1) rest
    | none => piece :: numberPieces number ordinal rest

/-- The text of a format, up to a NUL, with a position in every directive that reads an argument. -/
def numberFormat (dialect : Dialect) (number : ℕ → ℕ) (format : Bytes) : Bytes :=
  (numberPieces number 0 (pieces dialect format)).flatMap Piece.raw

variable {dialect : Dialect} {number : ℕ → ℕ}

theorem numberPieces_cons_some {piece : Piece} {spec : FormatSpec}
    (h : piece.argumentSpec? = some spec) (ordinal : ℕ) (rest : List Piece) :
    numberPieces number ordinal (piece :: rest) =
      .directive (spec.atPosition (number ordinal)) (insertPosition (number ordinal) piece.raw) ::
        numberPieces number (ordinal + 1) rest := by
  simp only [numberPieces, h]

theorem numberPieces_cons_none {piece : Piece} (h : piece.argumentSpec? = none) (ordinal : ℕ)
    (rest : List Piece) :
    numberPieces number ordinal (piece :: rest) = piece :: numberPieces number ordinal rest := by
  simp only [numberPieces, h]

/-! ## Reading positions back -/

namespace DirectiveText

/-- A directive with a position written in front of it. -/
def atPosition (t : DirectiveText) (position : ℕ) : DirectiveText :=
  { t with position := some (false, numeral 10 position) }

theorem toBytes_atPosition {t : DirectiveText} (h : t.position = none) (position : ℕ) :
    ascii '%' :: (t.atPosition position).toBytes =
      insertPosition position (ascii '%' :: t.toBytes) := by
  simp [toBytes, atPosition, insertPosition, positionText, minusText, h]

/-- The position that is written is the position that is read. -/
theorem spec_atPosition (t : DirectiveText) (position : ℕ) :
    (t.atPosition position).spec = t.spec.atPosition position := by
  rw [FormatSpec.atPosition, ← Numeral.decimalValue_numeral]
  rfl

theorem EndsBefore.atPosition {t : DirectiveText} {next : Option UInt8}
    (h : t.EndsBefore dialect next) (position : ℕ) :
    (t.atPosition position).EndsBefore dialect next where
  position_digits := by
    rintro _ ⟨⟩
    exact ⟨Numeral.numeral_ne_nil 10 position, Numeral.isDigit_of_mem_numeral position⟩
  not_position := by rintro ⟨⟩
  field_ends := h.field_ends
  length_ends := h.length_ends
  second_extends := h.second_extends
  not_extended := h.not_extended

end DirectiveText

/-- The text of a numbered format begins as the format does. -/
theorem Splits.head?_flatMap_numberPieces {s : Bytes} {pieces : List Piece}
    (h : Splits dialect s pieces) (number : ℕ → ℕ) (ordinal : ℕ) :
    ((numberPieces number ordinal pieces).flatMap Piece.raw).head? = s.head? := by
  cases h with
  | nil => rfl
  | literal => rfl
  | incomplete => rfl
  | @directive t rest pieces =>
      cases hspec : (Piece.directive t.spec (ascii '%' :: t.toBytes)).argumentSpec? with
      | none => rw [numberPieces_cons_none hspec]; rfl
      | some spec => rw [numberPieces_cons_some hspec]; rfl

/-- The pieces of a numbered text are the numbered pieces of the text. -/
theorem Splits.numbered {s : Bytes} {pieces : List Piece} (h : Splits dialect s pieces)
    (hsequential : ∀ spec ∈ pieces.filterMap Piece.argumentSpec?, spec.position = none)
    (ordinal : ℕ) :
    Splits dialect ((numberPieces number ordinal pieces).flatMap Piece.raw)
      (numberPieces number ordinal pieces) := by
  induction h generalizing ordinal with
  | nil => exact .nil
  | @literal b run rest pieces hb hrun hrest split ih =>
      have hhead := split.head?_flatMap_numberPieces number ordinal
      exact .literal hb hrun (hhead ▸ hrest) (ih hsequential ordinal)
  | @incomplete text hread =>
      have hraw : [Piece.incomplete (ascii '%' :: text)].flatMap Piece.raw = ascii '%' :: text :=
        List.append_nil _
      rw [numberPieces_cons_none rfl, numberPieces, hraw]
      exact .incomplete hread
  | @directive t rest pieces hends split ih =>
      cases hspec : (Piece.directive t.spec (ascii '%' :: t.toBytes)).argumentSpec? with
      | none =>
          rw [List.filterMap_cons_none hspec] at hsequential
          have hhead := split.head?_flatMap_numberPieces number ordinal
          rw [numberPieces_cons_none hspec]
          exact .directive (hhead ▸ hends) (ih hsequential ordinal)
      | some spec =>
          rw [List.filterMap_cons_some hspec] at hsequential
          obtain ⟨⟨raw, heq⟩, -⟩ := Piece.argumentSpec?_eq_some_iff.mp hspec
          cases heq
          have hposition : t.position = none := by
            have hnone := hsequential t.spec List.mem_cons_self
            rwa [DirectiveText.spec, Option.map_eq_none_iff] at hnone
          have hhead := split.head?_flatMap_numberPieces number (ordinal + 1)
          have hrest : ∀ spec ∈ pieces.filterMap Piece.argumentSpec?, spec.position = none := by
            intro spec hmem
            exact hsequential spec (List.mem_cons_of_mem _ hmem)
          have hnumbered := Splits.directive ((hhead ▸ hends).atPosition (number ordinal))
            (ih hrest (ordinal + 1))
          rw [DirectiveText.toBytes_atPosition hposition, DirectiveText.spec_atPosition,
            ← List.cons_append, DirectiveText.toBytes_atPosition hposition] at hnumbered
          rw [numberPieces_cons_some hspec]
          exact hnumbered

theorem mem_insertPosition {b : UInt8} {position : ℕ} {raw : Bytes}
    (h : b ∈ insertPosition position raw) : b ∈ raw ∨ isDigit b ∨ b = ascii '$' := by
  cases raw with
  | nil => cases h
  | cons percent text =>
      simp only [insertPosition, List.mem_cons, List.mem_append] at h
      rcases h with rfl | h | rfl | h
      · exact .inl List.mem_cons_self
      · exact .inr (.inl (Numeral.isDigit_of_mem_numeral position b h))
      · exact .inr (.inr rfl)
      · exact .inl (List.mem_cons_of_mem _ h)

/-- A numbered text has no bytes but those of the text, digits and dollar signs. -/
theorem mem_flatMap_numberPieces {b : UInt8} {pieces : List Piece} {ordinal : ℕ}
    (h : b ∈ (numberPieces number ordinal pieces).flatMap Piece.raw) :
    b ∈ pieces.flatMap Piece.raw ∨ isDigit b ∨ b = ascii '$' := by
  induction pieces generalizing ordinal with
  | nil => exact .inl h
  | cons piece rest ih =>
      rw [List.flatMap_cons, List.mem_append]
      cases hspec : piece.argumentSpec? with
      | none =>
          rw [numberPieces_cons_none hspec, List.flatMap_cons, List.mem_append] at h
          rcases h with h | h
          · exact .inl (.inl h)
          · exact (ih h).imp_left .inr
      | some spec =>
          rw [numberPieces_cons_some hspec, List.flatMap_cons, List.mem_append] at h
          rcases h with h | h
          · exact (mem_insertPosition h).imp_left .inl
          · exact (ih h).imp_left .inr

theorem pieces_numberFormat {format : Bytes}
    (hsequential : Sequential dialect format) :
    pieces dialect (numberFormat dialect number format) =
      numberPieces number 0 (pieces dialect format) := by
  have hsplits := splits_splitPieces dialect (untilNul format)
  have hnul : untilNul (numberFormat dialect number format) =
      numberFormat dialect number format := by
    apply untilNul_eq_self
    intro hmem
    rcases mem_flatMap_numberPieces hmem with htext | hdigit | hdollar
    · rw [flatMap_raw_pieces] at htext
      have hkept := List.mem_takeWhile_imp htext
      rw [decide_eq_true_eq] at hkept
      exact hkept rfl
    · revert hdigit
      decide
    · revert hdollar
      decide
  rw [pieces, hnul]
  exact splitPieces_eq_iff.mpr (hsplits.numbered hsequential 0)

/-! ## What numbering changes -/

theorem argumentSpec?_atPosition {piece : Piece} {spec : FormatSpec}
    (h : piece.argumentSpec? = some spec) (position : ℕ) (raw : Bytes) :
    (Piece.directive (spec.atPosition position) raw).argumentSpec? =
      some (spec.atPosition position) :=
  Piece.argumentSpec?_eq_some_iff.mpr ⟨⟨raw, rfl⟩, (Piece.argumentSpec?_eq_some_iff.mp h).2⟩

theorem argumentSpecs_numberPieces (ordinal : ℕ) (pieces : List Piece) :
    (numberPieces number ordinal pieces).filterMap Piece.argumentSpec? =
      ((pieces.filterMap Piece.argumentSpec?).zipIdx ordinal).map fun (spec, k) =>
        spec.atPosition (number k) := by
  induction pieces generalizing ordinal with
  | nil => rfl
  | cons piece rest ih =>
      cases hspec : piece.argumentSpec? with
      | none =>
          rw [numberPieces_cons_none hspec, List.filterMap_cons_none hspec,
            List.filterMap_cons_none hspec, ih]
      | some spec =>
          rw [numberPieces_cons_some hspec, List.filterMap_cons_some hspec,
            List.filterMap_cons_some (argumentSpec?_atPosition hspec _ _), ih]
          rfl

theorem spell_numberPieces (shows : ℕ → FormatSpec → Bytes) (ordinal : ℕ) (pieces : List Piece) :
    spell shows ordinal (numberPieces number ordinal pieces) =
      spell (fun k spec => shows k (spec.atPosition (number k))) ordinal pieces := by
  induction pieces generalizing ordinal with
  | nil => rfl
  | cons piece rest ih =>
      cases hspec : piece.argumentSpec? with
      | none =>
          rw [numberPieces_cons_none hspec, spell_cons_none hspec, spell_cons_none hspec, ih]
      | some spec =>
          rw [numberPieces_cons_some hspec, spell_cons_some hspec,
            spell_cons_some (argumentSpec?_atPosition hspec _ _), ih]

/-! ## Numbering renames arguments -/

/-- Filtering keeps the places of a range if nothing is filtered out. -/
theorem getElem?_filterMap_range {α : Type} {f : ℕ → Option α} {n k : ℕ}
    (hsome : ∀ j < n, (f j).isSome) (hk : k < n) : ((List.range n).filterMap f)[k]? = f k := by
  have hall : ((List.range n).filterMap f).map some = (List.range n).map f := by
    rw [List.map_filterMap_some_eq_filter_map_isSome, List.filter_eq_self]
    intro value hvalue
    obtain ⟨j, hj, rfl⟩ := List.mem_map.mp hvalue
    exact hsome j (List.mem_range.mp hj)
  have hget := congrArg (·[k]?) hall
  rw [List.getElem?_map, List.getElem?_map, List.getElem?_range hk, Option.map_some,
    Option.map_eq_some_iff] at hget
  obtain ⟨value, hvalue, heq⟩ := hget
  rw [hvalue, heq]

section Renamed

variable {heap : Heap} {format : Bytes} {arguments : List Argument}

theorem getElem?_argumentSpecs_numberFormat
    (hsequential : Sequential dialect format) (k : ℕ) :
    (argumentSpecs dialect (numberFormat dialect number format))[k]? =
      (argumentSpecs dialect format)[k]?.map (·.atPosition (number k)) := by
  rw [argumentSpecs, pieces_numberFormat hsequential, argumentSpecs_numberPieces, List.getElem?_map,
    List.getElem?_zipIdx, argumentSpecs]
  cases ((pieces dialect format).filterMap Piece.argumentSpec?)[k]? with
  | none => rfl
  | some spec => rw [Option.map_some, Option.map_some, Option.map_some, Nat.zero_add]

theorem countArguments_numberFormat (number : ℕ → ℕ)
    (hsequential : Sequential dialect format) :
    countArguments dialect (numberFormat dialect number format) =
      countArguments dialect format := by
  rw [countArguments, argumentSpecs, pieces_numberFormat hsequential, argumentSpecs_numberPieces,
    List.length_map, List.length_zipIdx]
  rfl

/-- A numbered directive names the slot before its position. -/
theorem names_of_numberFormat (hsequential : Sequential dialect format)
    (hgranted : heap.GrantsSlots dialect (countArguments dialect format))
    (hnumber : ∀ k < countArguments dialect format,
      1 ≤ number k ∧ number k ≤ countArguments dialect format)
    {k : ℕ} {spec : FormatSpec}
    (hspec : (argumentSpecs dialect (numberFormat dialect number format))[k]? = some spec) :
    spec.Names k (number k - 1) ∧ number k - 1 < countArguments dialect format := by
  rw [getElem?_argumentSpecs_numberFormat hsequential, Option.map_eq_some_iff] at hspec
  obtain ⟨plain, hplain, rfl⟩ := hspec
  obtain ⟨hpos, hle⟩ := hnumber k (List.getElem?_eq_some_iff.mp hplain).1
  have hexact : saturate (number k) = number k := saturate_of_le (hle.trans hgranted.le_maxLength)
  refine ⟨.inr ?_, by omega⟩
  rw [FormatSpec.atPosition, hexact, Nat.sub_add_cancel hpos]

/-- Numbering changes no type. -/
theorem typesAgree_numberFormat (hsequential : Sequential dialect format)
    (hnumber : ∀ k < countArguments dialect format,
      1 ≤ number k ∧ number k ≤ countArguments dialect format)
    (hagree : TypesAgree (argumentSpecs dialect format) number) :
    TypesAgree (argumentSpecs dialect (numberFormat dialect number format))
      fun k => number k - 1 := by
  intro j hj k hk hjk
  rw [← countArguments, countArguments_numberFormat number hsequential] at hj hk
  have hnumbers : number j = number k := by
    have hposj := hnumber j hj
    have hposk := hnumber k hk
    have heq : number j - 1 = number k - 1 := hjk
    omega
  have htypes := hagree j hj k hk hnumbers
  rw [getElem?_argumentSpecs_numberFormat hsequential,
    getElem?_argumentSpecs_numberFormat hsequential, Option.bind_map, Option.bind_map]
  exact htypes

/-- A numbered format shows the arguments that its positions name. -/
theorem toBytes_formatOutput_numberFormat (hsequential : Sequential dialect format)
    (hgranted : heap.GrantsSlots dialect (countArguments dialect format))
    (hnumber : ∀ k < countArguments dialect format,
      1 ≤ number k ∧ number k ≤ countArguments dialect format)
    (hagree : TypesAgree (argumentSpecs dialect format) number) :
    (formatOutput dialect heap (numberFormat dialect number format) arguments).1.toBytes =
      spell (fun ordinal spec => arguments[number ordinal - 1]?.elim [] spec.meaning) 0
        (pieces dialect format) := by
  have hcount := countArguments_numberFormat number hsequential
  rw [toBytes_formatOutput_of_names arguments fun k => number k - 1,
    pieces_numberFormat hsequential, spell_numberPieces]
  · rfl
  · rwa [hcount]
  · intro k spec hspec
    rw [hcount]
    exact names_of_numberFormat hsequential hgranted hnumber hspec
  · exact typesAgree_numberFormat hsequential hnumber hagree

/-- **Numbering renames arguments.** Positions may be written into the directives of a format
without positions, so long as directives with the same position read the same type. What comes of
it shows of its arguments what the format shows of the arguments in the order of the positions. If
every directive gets its own number, the arguments may be too few, and nothing changes. -/
theorem numberFormat_renames_arguments (dialect : Dialect) (heap : Heap) (format : Bytes)
    (hsequential : Sequential dialect format)
    (hgranted : heap.GrantsSlots dialect (countArguments dialect format)) :
    (∀ (number : ℕ → ℕ) (arguments : List Argument),
      (∀ k < countArguments dialect format,
        1 ≤ number k ∧ number k ≤ countArguments dialect format) →
      TypesAgree (argumentSpecs dialect format) number →
      countArguments dialect format ≤ arguments.length →
      (formatOutput dialect heap (numberFormat dialect number format) arguments).1.toBytes =
        (formatOutput dialect heap format ((List.range (countArguments dialect format)).filterMap
          fun k => arguments[number k - 1]?)).1.toBytes) ∧
    ∀ arguments : List Argument,
      (formatOutput dialect heap (numberFormat dialect (· + 1) format) arguments).1.toBytes =
        (formatOutput dialect heap format arguments).1.toBytes := by
  have hplain : ∀ arguments : List Argument,
      (formatOutput dialect heap format arguments).1.toBytes =
        spell (fun ordinal spec => arguments[ordinal]?.elim [] spec.meaning) 0
          (pieces dialect format) := by
    intro arguments
    apply toBytes_formatOutput_of_names arguments id hgranted
    · intro k spec hspec
      exact hsequential.names hspec
    · apply TypesAgree.of_injOn
      intro j _ k _ hjk
      exact hjk
  constructor
  · intro number arguments hnumber hagree hlength
    rw [toBytes_formatOutput_numberFormat hsequential hgranted hnumber hagree, hplain]
    apply spell_congr
    intro k spec hspec
    have hk : k < countArguments dialect format := (List.getElem?_eq_some_iff.mp hspec).1
    have hsome : ∀ j < countArguments dialect format, (arguments[number j - 1]?).isSome := by
      intro j hj
      have hrange := hnumber j hj
      rw [isSome_getElem?]
      omega
    rw [Nat.zero_add, getElem?_filterMap_range hsome hk]
  · intro arguments
    have hnumber : ∀ k < countArguments dialect format,
        1 ≤ k + 1 ∧ k + 1 ≤ countArguments dialect format := by
      intro k hk
      omega
    have hagree : TypesAgree (argumentSpecs dialect format) (· + 1) := by
      apply TypesAgree.of_injOn
      intro j _ k _ hjk
      exact Nat.succ.inj hjk
    rw [toBytes_formatOutput_numberFormat hsequential hgranted hnumber hagree, hplain]
    rfl

theorem numberFormat_renames_arguments_swapped :
    Sequential .plain (textBytes "%-4x|%.2s%%|%x") ∧
    Heap.system.GrantsSlots .plain (countArguments .plain (textBytes "%-4x|%.2s%%|%x")) ∧
    numberFormat .plain (fun k => 2 - k % 2) (textBytes "%-4x|%.2s%%|%x") =
      textBytes "%2$-4x|%1$.2s%%|%2$x" ∧
    (formatOutput .plain .system (textBytes "%2$-4x|%1$.2s%%|%2$x")
      [.ofText "abc", .uint 7, .int 0]).1.toBytes =
      (formatOutput .plain .system (textBytes "%-4x|%.2s%%|%x")
        [.uint 7, .ofText "abc", .uint 7]).1.toBytes ∧
    (formatOutput .plain .system (textBytes "%1$-4x|%2$.2s%%|%3$x") [.uint 7]).1.toBytes =
      (formatOutput .plain .system (textBytes "%-4x|%.2s%%|%x") [.uint 7]).1.toBytes := by
  have hswapped : numberFormat .plain (fun k => 2 - k % 2) (textBytes "%-4x|%.2s%%|%x") =
      textBytes "%2$-4x|%1$.2s%%|%2$x" := by decide +kernel
  have hordered : numberFormat .plain (· + 1) (textBytes "%-4x|%.2s%%|%x") =
      textBytes "%1$-4x|%2$.2s%%|%3$x" := by decide +kernel
  have hcount : countArguments .plain (textBytes "%-4x|%.2s%%|%x") = 3 := by decide +kernel
  have hrenamed := numberFormat_renames_arguments .plain .system
    (textBytes "%-4x|%.2s%%|%x") (by decide +kernel) (by decide +kernel)
  refine ⟨by decide +kernel, by decide +kernel, hswapped, ?_, ?_⟩
  · have hswap := hrenamed.1 (fun k => 2 - k % 2) [.ofText "abc", .uint 7, .int 0]
      (by decide +kernel) (by decide +kernel) (by decide +kernel)
    rw [hswapped, hcount] at hswap
    exact hswap
  · have hsame := hrenamed.2 [.uint 7]
    rwa [hordered] at hsame

end Renamed

end BoundedFormat
