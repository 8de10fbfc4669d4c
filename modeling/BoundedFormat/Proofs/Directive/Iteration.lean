import BoundedFormat.Format
import BoundedFormat.Proofs.Directive.Joining

/-!
# Walking through a format

A `Walk` takes the pieces of a format one by one: it keeps the text up to its NUL and the place that
it has reached, and finds the end of each piece as an index. `Produces` says which pieces a walk
gives out and where it is then. The main statement is that every walk through a format comes to its
end with the pieces that the split has, and that these cut the text up without loss or overlap. What
stands behind the NUL changes nothing.
-/

namespace BoundedFormat

/-- A text, and the place reached in it. -/
structure Walk where
  text : Bytes
  place : ℕ

namespace Walk

/-- Before the first piece of a format. -/
def start (format : Bytes) : Walk := { text := untilNul format, place := 0 }

/-- The bytes from the place reached to another. -/
def upTo (w : Walk) (stop : ℕ) : Bytes := (w.text.drop w.place).take (stop - w.place)

/-- The next piece, and the walk behind it. A piece without end goes to the end of the text. -/
def next? (dialect : Dialect) (w : Walk) : Option (Piece × Walk) :=
  match w.text[w.place]? with
  | none => none
  | some b =>
    if b = ascii '%' then
      let behind := w.text.drop (w.place + 1)
      match FormatSpec.read? dialect behind with
      | none =>
        let stop := w.text.length
        some (.incomplete (w.upTo stop), { w with place := stop })
      | some (spec, rest) =>
        let stop := w.place + 1 + (behind.length - rest.length)
        some (.directive spec (w.upTo stop), { w with place := stop })
    else
      let stop := w.place + (w.text.drop w.place).findIdx (· = ascii '%')
      some (.literal (w.upTo stop), { w with place := stop })

/-- From one place a walk gives out some pieces, and is then at another. -/
inductive Produces (dialect : Dialect) : Walk → List Piece → Walk → Prop
  | refl (w : Walk) : Produces dialect w [] w
  | next {w middle last : Walk} {piece : Piece} {pieces : List Piece}
      (hnext : w.next? dialect = some (piece, middle))
      (hrest : Produces dialect middle pieces last) :
      Produces dialect w (piece :: pieces) last

variable {dialect : Dialect} {w w' : Walk} {piece : Piece} {given : List Piece}

/-! ## Steps -/

/-- A step goes on in the same text, over at least one byte, and gives out what it goes over. -/
theorem next?_advances (h : w.next? dialect = some (piece, w')) :
    w'.text = w.text ∧ w.place < w'.place ∧ w'.place ≤ w.text.length ∧
      piece.raw = w.upTo w'.place := by
  rw [next?] at h
  cases hb : w.text[w.place]? with
  | none =>
      rw [hb] at h
      cases h
  | some b =>
      obtain ⟨hplace, hget⟩ := List.getElem?_eq_some_iff.mp hb
      simp only [hb] at h
      by_cases hpercent : b = ascii '%'
      · rw [if_pos hpercent] at h
        cases hread : FormatSpec.read? dialect (w.text.drop (w.place + 1)) with
        | none =>
            simp only [hread] at h
            cases h
            exact ⟨rfl, hplace, Nat.le_refl _, rfl⟩
        | some found =>
            simp only [hread, List.length_drop] at h
            cases h
            refine ⟨rfl, ?_, ?_, rfl⟩ <;> simp only <;> omega
      · rw [if_neg hpercent] at h
        cases h
        have hpos : 0 < (w.text.drop w.place).findIdx (· = ascii '%') := by
          rw [List.drop_eq_getElem_cons hplace, hget, List.findIdx_cons, decide_eq_false hpercent]
          exact Nat.succ_pos _
        have hle : (w.text.drop w.place).findIdx (· = ascii '%') ≤ w.text.length - w.place := by
          rw [← List.length_drop]
          exact List.findIdx_le_length
        refine ⟨rfl, ?_, ?_, rfl⟩ <;> simp only <;> omega

/-- A walk that was left off can be taken up and comes to the same end. -/
theorem Produces.resume {left last : Walk} {all : List Piece}
    (h : Produces dialect w given left) (hall : Produces dialect w all last)
    (hend : last.next? dialect = none) :
    ∃ more, all = given ++ more ∧ Produces dialect left more last := by
  induction h generalizing all with
  | refl => exact ⟨all, rfl, hall⟩
  | next hnext _ ih =>
      cases hall with
      | refl =>
          rw [hend] at hnext
          cases hnext
      | next hnext' hrest =>
          rw [hnext] at hnext'
          cases hnext'
          obtain ⟨more, rfl, hmore⟩ := ih hrest
          exact ⟨more, rfl, hmore⟩

/-- A walk that gives out some pieces and then others has a place between them. -/
theorem Produces.split {last : Walk} {before after : List Piece}
    (h : Produces dialect w (before ++ after) last) :
    ∃ middle, Produces dialect w before middle ∧ Produces dialect middle after last := by
  induction before generalizing w with
  | nil => exact ⟨w, .refl w, h⟩
  | cons first before ih =>
      cases h with
      | next hnext hrest =>
          obtain ⟨middle, hbefore, hafter⟩ := ih hrest
          exact ⟨middle, .next hnext hbefore, hafter⟩

/-- A piece is given out exactly if the walk comes to a place where it is the next. -/
theorem Produces.mem_iff {last : Walk} (h : Produces dialect w given last)
    (hend : last.next? dialect = none) :
    piece ∈ given ↔
      ∃ before middle behind, Produces dialect w before middle ∧
        middle.next? dialect = some (piece, behind) := by
  constructor
  · intro hmem
    obtain ⟨before, after, rfl⟩ := List.append_of_mem hmem
    obtain ⟨middle, hbefore, hafter⟩ := h.split
    cases hafter with
    | next hnext _ => exact ⟨before, middle, _, hbefore, hnext⟩
  · rintro ⟨before, middle, behind, hbefore, hnext⟩
    obtain ⟨more, rfl, hmore⟩ := hbefore.resume h hend
    cases hmore with
    | refl =>
        rw [hend] at hnext
        cases hnext
    | next hnext' _ =>
        rw [hnext'] at hnext
        cases hnext
        exact List.mem_append_right _ List.mem_cons_self

/-- A walk stands behind the bytes that it has given out. -/
theorem Produces.place_eq {last : Walk} (h : Produces dialect w given last) :
    last.text = w.text ∧ last.place = w.place + (given.flatMap Piece.raw).length := by
  induction h with
  | refl => exact ⟨rfl, rfl⟩
  | next hnext _ ih =>
      obtain ⟨htext, hlt, hle, hraw⟩ := next?_advances hnext
      have hlength := congrArg List.length hraw
      rw [upTo, List.length_take, List.length_drop] at hlength
      refine ⟨ih.1.trans htext, ?_⟩
      rw [ih.2, List.flatMap_cons, List.length_append]
      omega

/-! ## The steps of a split -/

section Behind

variable (front : Bytes)

/-- What a walk gives out from behind some text up to a place. -/
theorem upTo_append (piece rest : Bytes) :
    ({ text := front ++ (piece ++ rest), place := front.length } : Walk).upTo
      (front.length + piece.length) = piece := by
  rw [upTo, List.drop_left, Nat.add_sub_cancel_left, List.take_left]

theorem getElem?_behind (rest : Bytes) : (front ++ rest)[front.length]? = rest.head? := by
  rw [List.getElem?_append_right (Nat.le_refl _), Nat.sub_self, List.head?_eq_getElem?]

theorem drop_behind (b : UInt8) (rest : Bytes) :
    (front ++ b :: rest).drop (front.length + 1) = rest := by
  rw [List.drop_length_add_append]
  rfl

theorem next?_end : ({ text := front, place := front.length } : Walk).next? dialect = none := by
  have hend : front[front.length]? = none := List.getElem?_eq_none (Nat.le_refl _)
  rw [next?, hend]

theorem next?_literal {b : UInt8} {run rest : Bytes} (hb : b ≠ ascii '%')
    (hrun : ∀ c ∈ run, c ≠ ascii '%') (hrest : ∀ c ∈ rest.head?, c = ascii '%') :
    let text := front ++ ((b :: run) ++ rest)
    ({ text, place := front.length } : Walk).next? dialect =
      some (.literal (b :: run), { text, place := front.length + (b :: run).length }) := by
  intro text
  have hwhole : ((b :: run).findIdx fun c => decide (c = ascii '%')) = (b :: run).length := by
    rw [List.findIdx_eq_length]
    rintro c hc
    rcases List.mem_cons.mp hc with rfl | hc
    · exact decide_eq_false hb
    · exact decide_eq_false (hrun c hc)
  have hstop : (rest.findIdx fun c => decide (c = ascii '%')) = 0 := by
    cases rest with
    | nil => rfl
    | cons c rest => rw [List.findIdx_cons, decide_eq_true (hrest c rfl)]; rfl
  have hfind : ((text.drop front.length).findIdx fun c => decide (c = ascii '%')) =
      (b :: run).length := by
    rw [List.drop_left, List.findIdx_append, hwhole, if_neg (Nat.lt_irrefl _), hstop, Nat.zero_add]
  have hget : text[front.length]? = some b := getElem?_behind front _
  rw [next?, hget]
  simp only [if_neg hb, hfind]
  rw [upTo_append]

theorem next?_incomplete {rest : Bytes} (hread : FormatSpec.read? dialect rest = none) :
    let text := front ++ (ascii '%' :: rest)
    ({ text, place := front.length } : Walk).next? dialect =
      some (.incomplete (ascii '%' :: rest), { text, place := text.length }) := by
  intro text
  have hget : text[front.length]? = some (ascii '%') := getElem?_behind front _
  have hpiece := upTo_append front (ascii '%' :: rest) []
  rw [List.append_nil, ← List.length_append] at hpiece
  rw [next?, hget]
  simp only [if_true, text, drop_behind, hread]
  rw [hpiece]

theorem next?_directive {t : DirectiveText} {rest : Bytes}
    (hends : t.EndsBefore dialect rest.head?) :
    let raw := ascii '%' :: t.toBytes
    let text := front ++ (raw ++ rest)
    ({ text, place := front.length } : Walk).next? dialect =
      some (.directive t.spec raw, { text, place := front.length + raw.length }) := by
  intro raw text
  have hget : text[front.length]? = some (ascii '%') := getElem?_behind front _
  have hbehind : text.drop (front.length + 1) = t.toBytes ++ rest := drop_behind front _ _
  have hconsumed : front.length + 1 + ((t.toBytes ++ rest).length - rest.length) =
      front.length + raw.length := by
    rw [List.length_append, List.length_cons]
    omega
  rw [next?, hget]
  simp only [if_true, hbehind, hends.read?_eq, hconsumed]
  rw [upTo_append]

end Behind

/-- A walk from behind some text gives out the pieces of what is left, and ends with the text. -/
theorem produces_of_splits {rest : Bytes} (h : Splits dialect rest given) (front : Bytes) :
    let text := front ++ rest
    Produces dialect { text, place := front.length } given { text, place := text.length } := by
  induction h generalizing front with
  | nil =>
      simp only [List.append_nil]
      exact .refl _
  | @literal b run rest pieces hb hrun hrest _ ih =>
      have hrestProduces := ih (front ++ b :: run)
      rw [List.append_assoc, List.length_append] at hrestProduces
      exact .next (next?_literal front hb hrun hrest) hrestProduces
  | incomplete hread => exact .next (next?_incomplete front hread) (.refl _)
  | @directive t rest pieces hends _ ih =>
      have hrestProduces := ih (front ++ ascii '%' :: t.toBytes)
      rw [List.append_assoc, List.length_append] at hrestProduces
      exact .next (next?_directive front hends) hrestProduces

/-- A walk through a format gives out the pieces that it is split into, and then no more. -/
theorem produces_pieces (dialect : Dialect) (format : Bytes) :
    let last : Walk := { text := untilNul format, place := (untilNul format).length }
    Produces dialect (start format) (pieces dialect format) last ∧ last.next? dialect = none :=
  ⟨produces_of_splits (splits_splitPieces dialect (untilNul format)) [], next?_end _⟩

end Walk

/-! ## Behind the NUL -/

section SameText

variable {format other : Bytes} (hsame : untilNul other = untilNul format) (dialect : Dialect)

include hsame

theorem pieces_of_untilNul_eq : pieces dialect other = pieces dialect format := by
  rw [pieces, hsame]
  rfl

theorem argumentSpecs_of_untilNul_eq :
    argumentSpecs dialect other = argumentSpecs dialect format := by
  rw [argumentSpecs, pieces_of_untilNul_eq hsame]
  rfl

theorem countArguments_of_untilNul_eq :
    countArguments dialect other = countArguments dialect format := by
  rw [countArguments, argumentSpecs_of_untilNul_eq hsame]
  rfl

theorem assignTypes_of_untilNul_eq (list : ArgumentList) :
    list.assignTypes dialect other = list.assignTypes dialect format := by
  rw [ArgumentList.assignTypes, slotUses, pieces_of_untilNul_eq hsame]
  rfl

theorem render_of_untilNul_eq (list : ArgumentList) :
    render dialect other list = render dialect format list := by
  rw [render, pieces_of_untilNul_eq hsame]
  rfl

/-- What stands behind the NUL of a format changes nothing of a call. -/
theorem formatOutput_of_untilNul_eq (heap : Heap) (arguments : List Argument) :
    formatOutput dialect heap other arguments = formatOutput dialect heap format arguments := by
  simp only [formatOutput, ArgumentList.collect, ArgumentList.scan,
    countArguments_of_untilNul_eq hsame, assignTypes_of_untilNul_eq hsame,
    render_of_untilNul_eq hsame]

end SameText

/-! ## Where pieces stand -/

namespace Piece

/-- What is to be found of a piece between others. Text without a percent sign goes on until there
is one, and does not stand behind other such text. A directive reads as it does, both alone and
before what follows. A directive that is cut short is the last piece. -/
def StandsBetween (dialect : Dialect) (before after : List Piece) : Piece → Prop
  | .literal raw =>
    (∀ b ∈ raw, b ≠ ascii '%') ∧ (∀ b ∈ (after.flatMap Piece.raw).head?, b = ascii '%') ∧
      ∀ other, before.getLast? ≠ some (.literal other)
  | .directive spec raw =>
    ∃ text, raw = ascii '%' :: text ∧ FormatSpec.read? dialect text = some (spec, []) ∧
      FormatSpec.read? dialect (text ++ after.flatMap Piece.raw) =
        some (spec, after.flatMap Piece.raw)
  | .incomplete raw =>
    after = [] ∧ ∃ text, raw = ascii '%' :: text ∧ FormatSpec.read? dialect text = none

end Piece

namespace Splits

variable {dialect : Dialect} {s : Bytes} {pieces : List Piece}

theorem raw_ne_nil (h : Splits dialect s pieces) : ∀ piece ∈ pieces, piece.raw ≠ [] := by
  induction h with
  | nil => simp
  | literal _ _ _ _ ih | directive _ _ ih =>
      exact List.forall_mem_cons.mpr ⟨List.cons_ne_nil _ _, ih⟩
  | incomplete => exact List.forall_mem_singleton.mpr (List.cons_ne_nil _ _)

/-- The first piece stands where it should. -/
theorem standsBetween_head {piece : Piece} (h : Splits dialect s (piece :: pieces)) :
    piece.StandsBetween dialect [] pieces := by
  cases h with
  | literal hb hrun hrest split =>
      rw [Piece.StandsBetween, split.flatMap_raw]
      exact ⟨List.forall_mem_cons.mpr ⟨hb, hrun⟩, hrest, by simp⟩
  | incomplete hread => exact ⟨rfl, _, rfl, hread⟩
  | @directive t rest _ hends split =>
      have halone : t.EndsBefore dialect ([] : Bytes).head? := hends.of_not_runsInto (by simp)
      have hread := halone.read?_eq
      rw [List.append_nil] at hread
      rw [Piece.StandsBetween, split.flatMap_raw]
      exact ⟨t.toBytes, rfl, hread, hends.read?_eq⟩

/-- Behind the first piece there is a split too, and behind text it begins with a percent sign. -/
theorem exists_tail {piece : Piece} (h : Splits dialect s (piece :: pieces)) :
    ∃ rest, Splits dialect rest pieces ∧
      ∀ raw, piece = .literal raw → ∀ b ∈ rest.head?, b = ascii '%' := by
  cases h with
  | literal _ _ hrest split => exact ⟨_, split, fun _ _ => hrest⟩
  | incomplete => exact ⟨[], .nil, by simp⟩
  | directive _ split => exact ⟨_, split, by simp⟩

/-- Every piece stands where it should. -/
theorem standsBetween {before after : List Piece} {piece : Piece}
    (h : Splits dialect s (before ++ piece :: after)) :
    piece.StandsBetween dialect before after := by
  induction before generalizing s with
  | nil => exact h.standsBetween_head
  | cons first before ih =>
      obtain ⟨rest, hrest, hseam⟩ := h.exists_tail
      have hplaced := ih hrest
      cases piece with
      | directive spec raw | incomplete raw => exact hplaced
      | literal raw =>
          obtain ⟨hfree, hnext, hlast⟩ := hplaced
          refine ⟨hfree, hnext, ?_⟩
          intro other hother
          rw [List.getLast?_cons] at hother
          cases hbefore : before.getLast? with
          | some last =>
              rw [hbefore] at hother
              exact hlast other (hbefore.trans hother)
          | none =>
              -- Two runs of text would meet, but the second of them begins with no percent sign.
              rw [hbefore] at hother
              rw [List.getLast?_eq_none_iff.mp hbefore] at hrest
              cases hrest with
              | @literal b run _ _ hb _ _ _ => exact hb (hseam other (Option.some.inj hother) b rfl)

end Splits

namespace Walk

/-- **A walk cuts a format up without loss.** It comes to its end, and has given out the pieces of
the format by then; left off earlier, it has given out the first of them and stands behind their
bytes. No piece is empty, together they are the format up to its NUL, and each stands where it
should. A format that is the same up to its NUL has the same pieces, the same number of arguments
and the same types of slots, and every call renders it the same. -/
theorem pieces_partition (dialect : Dialect) (format : Bytes) :
    let text := untilNul format
    let cut := pieces dialect format
    (∃ last, Produces dialect (start format) cut last ∧ last.next? dialect = none) ∧
    (∀ given w, Produces dialect (start format) given w →
      (∃ more, cut = given ++ more) ∧ w.text = text ∧
        w.place = (given.flatMap Piece.raw).length) ∧
    cut.flatMap Piece.raw = text ∧
    (∀ piece ∈ cut, piece.raw ≠ []) ∧
    (∀ before piece after, cut = before ++ piece :: after →
      piece.StandsBetween dialect before after) ∧
    ∀ other, untilNul other = text →
      pieces dialect other = cut ∧
      countArguments dialect other = countArguments dialect format ∧
      (∀ list : ArgumentList, list.assignTypes dialect other = list.assignTypes dialect format) ∧
      (∀ list, render dialect other list = render dialect format list) ∧
      ∀ heap arguments, formatOutput dialect heap other arguments =
        formatOutput dialect heap format arguments := by
  intro text cut
  have hsplits : Splits dialect text cut := splits_splitPieces dialect text
  obtain ⟨hall, hend⟩ := produces_pieces dialect format
  refine ⟨⟨_, hall, hend⟩, ?_, hsplits.flatMap_raw, hsplits.raw_ne_nil, ?_, ?_⟩
  · intro given w hgiven
    obtain ⟨more, hmore, -⟩ := hgiven.resume hall hend
    obtain ⟨htext, hplace⟩ := hgiven.place_eq
    exact ⟨⟨more, hmore⟩, htext, hplace.trans (Nat.zero_add _)⟩
  · intro before piece after hcut
    rw [hcut] at hsplits
    exact hsplits.standsBetween
  · intro other hother
    exact ⟨pieces_of_untilNul_eq hother dialect, countArguments_of_untilNul_eq hother dialect,
      assignTypes_of_untilNul_eq hother dialect, render_of_untilNul_eq hother dialect,
      formatOutput_of_untilNul_eq hother dialect⟩

theorem pieces_partition_cut_short :
    let text := textBytes "a%ur%zb%-.h"
    let format := text ++ 0 :: textBytes "d%s"
    untilNul text = untilNul format ∧
    pieces .firmware format =
      [.literal (textBytes "a"),
        .directive
          { position := none, leftJustify := false, zeroFill := false, width := 0
            precision := none, length := .none, conversion := .status } (textBytes "%ur"),
        .directive
          { position := none, leftJustify := false, zeroFill := false, width := 0
            precision := none, length := .none, conversion := .literal (ascii 'z') }
          (textBytes "%z"),
        .literal (textBytes "b"), .incomplete (textBytes "%-.h")] ∧
    (∃ last, Produces .firmware (start format) (pieces .firmware format) last ∧
      last.next? .firmware = none) ∧
    countArguments .firmware text = countArguments .firmware format := by
  intro text format
  have hsame : untilNul text = untilNul format := by decide +kernel
  obtain ⟨hends, -, -, -, -, hnul⟩ := pieces_partition .firmware format
  exact ⟨hsame, by decide +kernel, hends, (hnul text hsame).2.1⟩

end Walk
end BoundedFormat
