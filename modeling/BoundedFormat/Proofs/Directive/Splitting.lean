import BoundedFormat.Proofs.Directive.Grammar

/-!
# The grammar of formats

`Splits` says how a format is cut: runs of text without a percent sign that end at one or at the end
of the format, directives, and at the very end a directive that is cut short. The split is the one
cut of this kind, and no byte is lost in it.
-/

namespace BoundedFormat

/-- The pieces that a text without NUL is cut into. -/
inductive Splits (dialect : Dialect) : Bytes → List Piece → Prop
  | nil : Splits dialect [] []
  | literal {b : UInt8} {run rest : Bytes} {pieces : List Piece} (hb : b ≠ ascii '%')
      (hrun : ∀ c ∈ run, c ≠ ascii '%') (hrest : ∀ c ∈ rest.head?, c = ascii '%')
      (split : Splits dialect rest pieces) :
      Splits dialect (b :: (run ++ rest)) (.literal (b :: run) :: pieces)
  | incomplete {text : Bytes} (hread : FormatSpec.read? dialect text = none) :
      Splits dialect (ascii '%' :: text) [.incomplete (ascii '%' :: text)]
  | directive {t : DirectiveText} {rest : Bytes} {pieces : List Piece}
      (hends : t.EndsBefore dialect rest.head?) (split : Splits dialect rest pieces) :
      Splits dialect (ascii '%' :: (t.toBytes ++ rest))
        (.directive t.spec (ascii '%' :: t.toBytes) :: pieces)

variable {dialect : Dialect} {s rest : Bytes}

/-! ## One piece off the front -/

theorem splitPieces_literal {b : UInt8} {run : Bytes} (hb : b ≠ ascii '%')
    (hrun : ∀ c ∈ run, c ≠ ascii '%') (hrest : ∀ c ∈ rest.head?, c = ascii '%') :
    splitPieces dialect (b :: (run ++ rest)) =
      .literal (b :: run) :: splitPieces dialect rest := by
  have hcut : ((run ++ rest).takeWhile (fun c => decide (c ≠ ascii '%')),
      (run ++ rest).dropWhile (fun c => decide (c ≠ ascii '%'))) = (run, rest) := by
    rw [takeWhile_dropWhile_eq_iff]
    exact ⟨rfl, by simpa using hrun, by simpa using hrest⟩
  rw [Prod.mk.injEq] at hcut
  rw [splitPieces, if_neg hb, hcut.1, hcut.2]

theorem splitPieces_incomplete (hread : FormatSpec.read? dialect s = none) :
    splitPieces dialect (ascii '%' :: s) = [.incomplete (ascii '%' :: s)] := by
  rw [splitPieces, if_pos rfl]
  split
  · rfl
  · next spec tail h =>
    rw [hread] at h
    cases h

theorem splitPieces_directive {t : DirectiveText} (hends : t.EndsBefore dialect rest.head?) :
    splitPieces dialect (ascii '%' :: (t.toBytes ++ rest)) =
      .directive t.spec (ascii '%' :: t.toBytes) :: splitPieces dialect rest := by
  have hread := hends.read?_eq
  rw [splitPieces, if_pos rfl]
  split
  · next h =>
    rw [hread] at h
    cases h
  · next spec tail h =>
    rw [hread] at h
    cases h
    rw [List.length_append, Nat.add_sub_cancel, List.take_left]

/-! ## Whole formats -/

theorem splits_splitPieces (dialect : Dialect) (s : Bytes) :
    Splits dialect s (splitPieces dialect s) := by
  induction s using splitPieces.induct dialect with
  | case1 =>
      rw [splitPieces]
      exact .nil
  | case2 rest hread =>
      rw [splitPieces_incomplete hread]
      exact .incomplete hread
  | case3 s spec rest hread ih =>
      obtain ⟨t, rfl, rfl, hends⟩ := FormatSpec.exists_text_of_read? hread
      rw [splitPieces_directive hends]
      exact .directive hends ih
  | case4 b s hb ih =>
      rcases hcut : (s.takeWhile (fun c => decide (c ≠ ascii '%')),
        s.dropWhile (fun c => decide (c ≠ ascii '%'))) with ⟨run, rest⟩
      rw [(Prod.mk.inj hcut).2] at ih
      obtain ⟨rfl, hrun, hrest⟩ := takeWhile_dropWhile_eq_iff.mp hcut
      have hrun' : ∀ c ∈ run, c ≠ ascii '%' := by simpa using hrun
      have hrest' : ∀ c ∈ rest.head?, c = ascii '%' := by simpa using hrest
      rw [splitPieces_literal hb hrun' hrest']
      exact .literal hb hrun' hrest' ih

/-- **The split is the one that the grammar allows.** -/
theorem splitPieces_eq_iff {pieces : List Piece} :
    splitPieces dialect s = pieces ↔ Splits dialect s pieces := by
  constructor
  · rintro rfl
    exact splits_splitPieces dialect s
  · intro h
    induction h with
    | nil => rw [splitPieces]
    | literal hb hrun hrest _ ih => rw [splitPieces_literal hb hrun hrest, ih]
    | incomplete hread => exact splitPieces_incomplete hread
    | directive hends _ ih => rw [splitPieces_directive hends, ih]

/-- A text without NUL does not end a format. -/
theorem untilNul_append {text : Bytes} (hnul : 0 ∉ text) (rest : Bytes) :
    untilNul (text ++ rest) = text ++ untilNul rest := by
  apply List.takeWhile_append_of_pos
  intro b hb
  rw [decide_eq_true_eq]
  rintro rfl
  exact hnul hb

theorem untilNul_eq_self {text : Bytes} (hnul : 0 ∉ text) : untilNul text = text := by
  have hnil : untilNul [] = [] := rfl
  have happend := untilNul_append hnul []
  rwa [hnil, List.append_nil] at happend

/-- A directive without NUL makes a format of one piece. -/
theorem pieces_directive {t : DirectiveText} (hends : t.EndsBefore dialect none)
    (hnul : 0 ∉ t.toBytes) :
    pieces dialect (ascii '%' :: t.toBytes) = [.directive t.spec (ascii '%' :: t.toBytes)] := by
  have hkept : untilNul (ascii '%' :: t.toBytes) = ascii '%' :: t.toBytes := by
    apply untilNul_eq_self
    intro hmem
    exact (List.mem_cons.mp hmem).elim (by decide) hnul
  have hsplits : Splits dialect (ascii '%' :: (t.toBytes ++ []))
      [.directive t.spec (ascii '%' :: t.toBytes)] := .directive hends .nil
  rw [List.append_nil] at hsplits
  rw [pieces, hkept]
  exact splitPieces_eq_iff.mpr hsplits

/-- No byte of a text is lost in the split. -/
theorem Splits.flatMap_raw {pieces : List Piece} (h : Splits dialect s pieces) :
    pieces.flatMap Piece.raw = s := by
  induction h with
  | nil => rfl
  | literal _ _ _ _ ih => rw [List.flatMap_cons, ih]; rfl
  | incomplete => exact List.append_nil _
  | directive _ _ ih => rw [List.flatMap_cons, ih]; rfl

/-- No piece is empty, so there are no more pieces than bytes. -/
theorem Splits.length_le {pieces : List Piece} (h : Splits dialect s pieces) :
    pieces.length ≤ s.length := by
  induction h with
  | nil => exact Nat.le_refl _
  | literal _ _ _ _ ih =>
      simp only [List.length_cons, List.length_append]
      omega
  | incomplete =>
      simp only [List.length_cons, List.length_nil]
      omega
  | directive _ _ ih =>
      simp only [List.length_cons, List.length_append]
      omega

theorem countArguments_le_length (dialect : Dialect) (format : Bytes) :
    countArguments dialect format ≤ format.length :=
  calc countArguments dialect format ≤ (pieces dialect format).length :=
        List.length_filterMap_le ..
    _ ≤ (untilNul format).length := (splits_splitPieces dialect (untilNul format)).length_le
    _ ≤ format.length := (List.takeWhile_sublist _).length_le

/-- The pieces of a format are the format, up to its NUL, cut into pieces. -/
theorem flatMap_raw_pieces (dialect : Dialect) (format : Bytes) :
    (pieces dialect format).flatMap Piece.raw = untilNul format :=
  (splits_splitPieces dialect (untilNul format)).flatMap_raw

end BoundedFormat
