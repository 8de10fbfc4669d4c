import BoundedFormat.Proofs.Directive.Splitting
import BoundedFormat.Proofs.Spelling

/-!
# Joining formats

Of the text behind a directive its reader looks at one byte, and for most directives not even at
that: `FormatSpec.RunsInto` says which byte makes another directive of which. Where it does not
stand, a format that ends with a whole piece can be continued. The pieces of the two together are
the pieces of the one and of the other, except that two runs of text that meet become one run.
-/

namespace BoundedFormat

/-! ## The byte behind a directive -/

/-- A byte behind a directive makes another one of it: an integer letter behind a bare `z`, or the
second letter of a conversion. -/
def FormatSpec.RunsInto (dialect : Dialect) (spec : FormatSpec) (b : UInt8) : Prop :=
  spec.length = .none ∧ spec.conversion = .literal (ascii 'z') ∧ isIntegerLetter b ∨
    spec.conversion.ExtendedBy dialect b

instance (dialect : Dialect) (spec : FormatSpec) (b : UInt8) :
    Decidable (spec.RunsInto dialect b) :=
  inferInstanceAs (Decidable (_ ∧ _ ∧ _ ∨ _ ∧ _))

/-- Without second letters, only a bare `z` is open to what follows. -/
theorem FormatSpec.runsInto_plain (spec : FormatSpec) (b : UInt8) :
    spec.RunsInto .plain b ↔
      spec.length = .none ∧ spec.conversion = .literal (ascii 'z') ∧ isIntegerLetter b := by
  simp [RunsInto, Conversion.ExtendedBy]

variable {dialect : Dialect}

/-- What follows a directive may be exchanged for anything that it does not run into. -/
theorem DirectiveText.EndsBefore.of_not_runsInto {t : DirectiveText} {next next' : Option UInt8}
    (h : t.EndsBefore dialect next) (hnext : ∀ b ∈ next', ¬ t.spec.RunsInto dialect b) :
    t.EndsBefore dialect next' where
  position_digits := h.position_digits
  not_position := h.not_position
  field_ends := h.field_ends
  length_ends := by
    have hends := h.length_ends
    cases hsecond : t.second with
    | some c => rwa [hsecond] at hends
    | none =>
        rw [hsecond, Option.none_or] at hends
        rw [Option.none_or]
        cases hlength : t.length with
        | none =>
            rw [hlength] at hends
            refine ⟨hends.1, hends.2.1, ?_⟩
            intro hletter b hb
            have hconversion : t.spec.conversion = .literal (ascii 'z') := by
              change Conversion.ofLetters t.letter t.second = _
              rw [hletter, hsecond]
              decide
            rw [Bool.eq_false_iff]
            intro hinteger
            exact hnext b hb (.inl ⟨hlength, hconversion, hinteger⟩)
        | _ => rwa [hlength] at hends
  second_extends := h.second_extends
  not_extended := by
    intro hsecond b hb hextends
    apply hnext b hb
    right
    rwa [spec, hsecond]

/-! ## Pieces of a joined text -/

/-- A run of text before some pieces, one with the run that they begin with, if they do. -/
def mergeLiteral (run : Bytes) : List Piece → List Piece
  | .literal more :: pieces => .literal (run ++ more) :: pieces
  | pieces => .literal run :: pieces

/-- The pieces of two texts, one behind the other. -/
def joinPieces : List Piece → List Piece → List Piece
  | [], next => next
  | .literal run :: pieces, next => mergeLiteral run (joinPieces pieces next)
  | piece :: pieces, next => piece :: joinPieces pieces next

namespace Splits

variable {s t : Bytes} {pieces next : List Piece}

theorem mergeLiteral {b : UInt8} {run : Bytes} (hb : b ≠ ascii '%')
    (hrun : ∀ c ∈ run, c ≠ ascii '%') (h : Splits dialect s pieces) :
    Splits dialect (b :: (run ++ s)) (mergeLiteral (b :: run) pieces) := by
  cases h with
  | nil => exact .literal hb hrun (by simp) .nil
  | @literal c more rest pieces hc hmore hrest split =>
      have hboth : ∀ d ∈ run ++ c :: more, d ≠ ascii '%' := by
        intro d hd
        rcases List.mem_append.mp hd with hd | hd
        · exact hrun d hd
        · rcases List.mem_cons.mp hd with rfl | hd
          · exact hc
          · exact hmore d hd
      have hmerged := Splits.literal hb hboth hrest split
      rwa [List.append_assoc] at hmerged
  | incomplete hread => exact .literal hb hrun (by simp) (.incomplete hread)
  | directive hends split => exact .literal hb hrun (by simp) (.directive hends split)

/-- A text whose last piece is whole can be continued with what that piece does not run into. -/
theorem join (h : Splits dialect s pieces) (hnext : Splits dialect t next)
    (hwhole : ∀ raw, .incomplete raw ∉ pieces)
    (hseam : ∀ spec raw, pieces.getLast? = some (.directive spec raw) →
      ∀ b ∈ t.head?, ¬ spec.RunsInto dialect b) :
    Splits dialect (s ++ t) (joinPieces pieces next) := by
  induction h with
  | nil => exact hnext
  | @literal b run rest pieces hb hrun hrest split ih =>
      rw [joinPieces, List.cons_append, List.append_assoc]
      refine (ih ?_ ?_).mergeLiteral hb hrun
      · intro raw hraw
        exact hwhole raw (List.mem_cons_of_mem _ hraw)
      · intro spec raw hlast
        apply hseam spec raw
        rw [List.getLast?_cons, hlast, Option.getD_some]
  | @incomplete text hread => exact absurd (List.mem_singleton_self _) (hwhole _)
  | @directive d rest pieces hends split ih =>
      -- Only the last directive has another byte behind it than before.
      have hends' : d.EndsBefore dialect (rest ++ t).head? := by
        cases rest with
        | nil =>
            cases split
            exact hends.of_not_runsInto (hseam _ _ rfl)
        | cons c rest => exact hends
      rw [joinPieces, List.cons_append, List.append_assoc]
      · refine .directive hends' (ih ?_ ?_)
        · intro raw hraw
          exact hwhole raw (List.mem_cons_of_mem _ hraw)
        · intro spec raw hlast
          apply hseam spec raw
          rw [List.getLast?_cons, hlast, Option.getD_some]
      · intro run hrun
        cases hrun

end Splits

/-- The pieces of a format without NUL that ends with a whole piece, continued with what this piece
does not run into. -/
theorem pieces_append {first second : Bytes} (hnul : 0 ∉ first)
    (hwhole : ∀ raw, .incomplete raw ∉ pieces dialect first)
    (hseam : ∀ spec raw, (pieces dialect first).getLast? = some (.directive spec raw) →
      ∀ b ∈ second.head?, ¬ spec.RunsInto dialect b) :
    pieces dialect (first ++ second) =
      joinPieces (pieces dialect first) (pieces dialect second) := by
  have hfirst : untilNul first = first := untilNul_eq_self hnul
  have happend : untilNul (first ++ second) = first ++ untilNul second :=
    untilNul_append hnul second
  have hhead : ∀ b ∈ (untilNul second).head?, b ∈ second.head? := by
    intro b hb
    cases second with
    | nil => exact hb
    | cons c rest =>
        rw [untilNul, List.takeWhile_cons] at hb
        split at hb
        · exact hb
        · cases hb
  have hsplits := splits_splitPieces dialect (untilNul first)
  rw [pieces, happend, splitPieces_eq_iff]
  rw [hfirst] at hsplits
  rw [pieces, hfirst] at hwhole hseam ⊢
  refine hsplits.join (splits_splitPieces dialect (untilNul second)) hwhole ?_
  intro spec raw hlast b hb
  exact hseam spec raw hlast b (hhead b hb)

/-! ## What joining keeps -/

theorem filterMap_mergeLiteral (run : Bytes) (pieces : List Piece) :
    (mergeLiteral run pieces).filterMap Piece.argumentSpec? =
      pieces.filterMap Piece.argumentSpec? := by
  rcases pieces with _ | ⟨_ | _ | _, rest⟩ <;> rfl

theorem filterMap_joinPieces (pieces next : List Piece) :
    (joinPieces pieces next).filterMap Piece.argumentSpec? =
      pieces.filterMap Piece.argumentSpec? ++ next.filterMap Piece.argumentSpec? := by
  induction pieces with
  | nil => rfl
  | cons piece pieces ih =>
      cases piece with
      | literal run =>
          rw [joinPieces, filterMap_mergeLiteral, ih, List.filterMap_cons_none rfl]
      | incomplete raw =>
          rw [joinPieces, List.filterMap_cons_none rfl, ih, List.filterMap_cons_none rfl]
          simp
      | directive spec raw =>
          simp only [joinPieces, List.filterMap_cons, ih]
          cases (Piece.directive spec raw).argumentSpec? <;> rfl

theorem spell_mergeLiteral (shows : ℕ → FormatSpec → Bytes) (ordinal : ℕ) (run : Bytes)
    (pieces : List Piece) :
    spell shows ordinal (mergeLiteral run pieces) = run ++ spell shows ordinal pieces := by
  rcases pieces with _ | ⟨more | _ | _, rest⟩
  · rfl
  · rw [mergeLiteral, spell_cons_none rfl, spell_cons_none rfl]
    exact List.append_assoc ..
  · rfl
  · rfl

/-- The directives of the second text go on with the numbers where those of the first stop. -/
theorem spell_joinPieces (shows : ℕ → FormatSpec → Bytes) (ordinal : ℕ)
    (pieces next : List Piece) :
    spell shows ordinal (joinPieces pieces next) =
      spell shows ordinal pieces ++
        spell shows (ordinal + (pieces.filterMap Piece.argumentSpec?).length) next := by
  induction pieces generalizing ordinal with
  | nil => rfl
  | cons piece pieces ih =>
      cases hspec : piece.argumentSpec? with
      | none =>
          have hjoin : spell shows ordinal (joinPieces (piece :: pieces) next) =
              piece.fixedBytes ++ spell shows ordinal (joinPieces pieces next) := by
            cases piece with
            | literal run => exact spell_mergeLiteral shows ordinal run _
            | incomplete raw | directive spec raw => exact spell_cons_none hspec ..
          rw [hjoin, ih, spell_cons_none hspec, List.filterMap_cons_none hspec,
            List.append_assoc]
      | some spec =>
          have hjoin : joinPieces (piece :: pieces) next = piece :: joinPieces pieces next := by
            obtain ⟨⟨raw, rfl⟩, -⟩ := Piece.argumentSpec?_eq_some_iff.mp hspec
            rfl
          rw [hjoin, spell_cons_some hspec, ih, spell_cons_some hspec,
            List.filterMap_cons_some hspec, List.append_assoc, List.length_cons,
            Nat.add_assoc, Nat.add_comm 1]

end BoundedFormat
