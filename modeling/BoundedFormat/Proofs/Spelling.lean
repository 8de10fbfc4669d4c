import BoundedFormat.Render
import Mathlib.Data.List.Basic

/-!
# A format spelled out

`spell` is the shape that all output of a format has: text, percent signs and letters stand for
themselves, and the directives that read an argument are numbered in order and stand for whatever
`shows` makes of the number. Rendering is the spelling in which a directive shows the slot that it
reads; two runs give the same bytes as soon as their directives show the same.
-/

namespace BoundedFormat

theorem Piece.argumentSpec?_eq_some_iff {piece : Piece} {spec : FormatSpec} :
    piece.argumentSpec? = some spec ↔
      (∃ raw, piece = .directive spec raw) ∧ spec.takesArgument := by
  cases piece with
  | literal raw | incomplete raw => simp [argumentSpec?]
  | directive other raw =>
      rw [argumentSpec?, Option.ite_none_right_eq_some, Option.some.injEq]
      constructor
      · rintro ⟨htakes, rfl⟩
        exact ⟨⟨raw, rfl⟩, htakes⟩
      · rintro ⟨⟨_, heq⟩, htakes⟩
        cases heq
        exact ⟨htakes, rfl⟩

/-- The bytes of a piece that reads no argument. -/
def Piece.fixedBytes : Piece → Bytes
  | .literal raw | .incomplete raw => raw
  | .directive spec _ =>
    match spec.conversion with
    | .percent => [ascii '%']
    | .literal letter => [letter]
    | _ => []

/-- The bytes of pieces of a format, `shows k spec` being those of the directive `spec` with the
number `k` among the directives that read an argument. -/
def spell (shows : ℕ → FormatSpec → Bytes) : (ordinal : ℕ) → List Piece → Bytes
  | _, [] => []
  | ordinal, piece :: rest =>
    match piece.argumentSpec? with
    | some spec => shows ordinal spec ++ spell shows (ordinal + 1) rest
    | none => piece.fixedBytes ++ spell shows ordinal rest

theorem spell_cons_some {piece : Piece} {spec : FormatSpec} (h : piece.argumentSpec? = some spec)
    (shows : ℕ → FormatSpec → Bytes) (ordinal : ℕ) (rest : List Piece) :
    spell shows ordinal (piece :: rest) =
      shows ordinal spec ++ spell shows (ordinal + 1) rest := by
  simp only [spell, h]

theorem spell_cons_none {piece : Piece} (h : piece.argumentSpec? = none)
    (shows : ℕ → FormatSpec → Bytes) (ordinal : ℕ) (rest : List Piece) :
    spell shows ordinal (piece :: rest) = piece.fixedBytes ++ spell shows ordinal rest := by
  simp only [spell, h]

/-- A spelling depends on what the directives show under their own numbers, and on nothing else. -/
theorem spell_congr {shows shows' : ℕ → FormatSpec → Bytes} (pieces : List Piece) (ordinal : ℕ)
    (h : ∀ k spec, (pieces.filterMap Piece.argumentSpec?)[k]? = some spec →
      shows (ordinal + k) spec = shows' (ordinal + k) spec) :
    spell shows ordinal pieces = spell shows' ordinal pieces := by
  induction pieces generalizing ordinal with
  | nil => rfl
  | cons piece rest ih =>
      cases hspec : piece.argumentSpec? with
      | none =>
          rw [spell_cons_none hspec, spell_cons_none hspec, ih]
          intro k spec hk
          exact h k spec (by rw [List.filterMap_cons_none hspec]; exact hk)
      | some spec =>
          rw [List.filterMap_cons_some hspec] at h
          have hfirst : shows ordinal spec = shows' ordinal spec := h 0 spec rfl
          rw [spell_cons_some hspec, spell_cons_some hspec, hfirst, ih]
          intro k other hk
          have hnext := h (k + 1) other (by rw [List.getElem?_cons_succ]; exact hk)
          rwa [Nat.add_assoc, Nat.add_comm 1 k]

/-- Numbering from a later place on is numbering from the start for a later place's directives. -/
theorem spell_shift (shows : ℕ → FormatSpec → Bytes) (place ordinal : ℕ) (pieces : List Piece) :
    spell shows (place + ordinal) pieces = spell (fun k => shows (place + k)) ordinal pieces := by
  induction pieces generalizing ordinal with
  | nil => rfl
  | cons piece rest ih =>
      cases hspec : piece.argumentSpec? with
      | none => rw [spell_cons_none hspec, spell_cons_none hspec, ih]
      | some spec => rw [spell_cons_some hspec, spell_cons_some hspec, Nat.add_assoc, ih]

/-- Pieces behind others go on with the numbers where those stop. -/
theorem spell_append (shows : ℕ → FormatSpec → Bytes) (ordinal : ℕ) (pieces next : List Piece) :
    spell shows ordinal (pieces ++ next) =
      spell shows ordinal pieces ++
        spell shows (ordinal + (pieces.filterMap Piece.argumentSpec?).length) next := by
  induction pieces generalizing ordinal with
  | nil => rfl
  | cons piece pieces ih =>
      rw [List.cons_append]
      cases hspec : piece.argumentSpec? with
      | none =>
          rw [spell_cons_none hspec, spell_cons_none hspec, ih, List.filterMap_cons_none hspec,
            List.append_assoc]
      | some spec =>
          rw [spell_cons_some hspec, spell_cons_some hspec, ih, List.filterMap_cons_some hspec,
            List.append_assoc, List.length_cons, Nat.add_assoc, Nat.add_comm 1]

/-! ## Rendering -/

/-- What a directive shows of the slot that it reads: nothing, if it reads none. -/
def slotBytes (spec : FormatSpec) (slot : Option Slot) : Bytes :=
  slot.elim [] fun slot => (renderSlot spec slot).toBytes

/-- The slot that a directive reads from a list. -/
def ArgumentList.read? (list : ArgumentList) (ordinal : ℕ) (spec : FormatSpec) : Option Slot :=
  (spec.slotIndex? ordinal).bind list.get?

/-- A directive that reads an argument renders as the slot it reads, and numbers on. -/
theorem toBytes_renderPieces_argument (list : ArgumentList) (ordinal : ℕ) {spec : FormatSpec}
    (h : spec.takesArgument) (raw : Bytes) (rest : List Piece) :
    (renderPieces list ordinal (.directive spec raw :: rest)).toBytes =
      slotBytes spec (list.read? ordinal spec) ++
        (renderPieces list (ordinal + 1) rest).toBytes := by
  rw [FormatSpec.takesArgument] at h
  rw [renderPieces, slotBytes, ArgumentList.read?]
  split
  · next hconversion => rw [hconversion] at h; cases h
  · next letter hconversion => rw [hconversion] at h; cases h
  · cases (spec.slotIndex? ordinal).bind list.get? with
    | none => rfl
    | some slot => exact Output.toBytes_append _ _

/-- A directive that reads no argument renders as its letter, and keeps the number. -/
theorem toBytes_renderPieces_fixed (list : ArgumentList) (ordinal : ℕ) {spec : FormatSpec}
    (h : spec.takesArgument = false) (raw : Bytes) (rest : List Piece) :
    (renderPieces list ordinal (.directive spec raw :: rest)).toBytes =
      (Piece.directive spec raw).fixedBytes ++ (renderPieces list ordinal rest).toBytes := by
  rw [renderPieces, Piece.fixedBytes]
  rw [FormatSpec.takesArgument] at h
  cases hconversion : spec.conversion with
  | percent | literal letter => rfl
  | _ => rw [hconversion] at h; cases h

theorem toBytes_renderPieces (list : ArgumentList) (ordinal : ℕ) (pieces : List Piece) :
    (renderPieces list ordinal pieces).toBytes =
      spell (fun k spec => slotBytes spec (list.read? k spec)) ordinal pieces := by
  induction pieces generalizing ordinal with
  | nil => rfl
  | cons piece rest ih =>
      cases piece with
      | literal raw | incomplete raw =>
          rw [spell_cons_none rfl, ← ih]
          rfl
      | directive spec raw =>
          by_cases h : spec.takesArgument
          · have hspec : (Piece.directive spec raw).argumentSpec? = some spec := if_pos h
            rw [toBytes_renderPieces_argument list ordinal h, ih, spell_cons_some hspec]
          · have hspec : (Piece.directive spec raw).argumentSpec? = none := if_neg h
            rw [toBytes_renderPieces_fixed list ordinal (by simpa using h), ih,
              spell_cons_none hspec]

theorem toBytes_render (dialect : Dialect) (format : Bytes) (list : ArgumentList) :
    (render dialect format list).toBytes =
      spell (fun k spec => slotBytes spec (list.read? k spec)) 0 (pieces dialect format) :=
  toBytes_renderPieces list 0 _

end BoundedFormat
