import BoundedFormat.WordSearch
import Mathlib.Data.List.Basic
import Mathlib.Data.List.TakeWhile

/-!
# Words are the runs between separators

A text is gaps and words in turn: a gap is made of separators only, a word has none, and between two
words the gap is not empty. `Spaced` is this relation between the words and the text. The main
statement is that `words` is its inverse, that the words stand in the text as its longest runs
without a separator, one after another, and that searching for a word is searching for its bytes
where separators or the ends of the text stand on both sides.
-/

namespace BoundedFormat

/-- Nothing but separators. -/
def IsGap (s : Bytes) : Prop := ∀ b ∈ s, isSeparator b

/-- At least one byte, and no separator. -/
structure IsWord (w : Bytes) : Prop where
  ne_nil : w ≠ []
  isSeparator_eq_false : ∀ b ∈ w, isSeparator b = false

/-- The text is empty or begins with a separator. -/
def StartsApart (s : Bytes) : Prop := ∀ b ∈ s.head?, isSeparator b

/-- The text is empty or ends with a separator. -/
def EndsApart (s : Bytes) : Prop := ∀ b ∈ s.getLast?, isSeparator b

/-- The text is the words of the list in order, with separators between any two of them, and
perhaps before the first and behind the last. -/
inductive Spaced : List Bytes → Bytes → Prop
  | nil {gap : Bytes} (hgap : IsGap gap) : Spaced [] gap
  | cons {gap word rest : Bytes} {list : List Bytes} (hgap : IsGap gap) (hword : IsWord word)
      (hrest : Spaced list rest) (hapart : StartsApart rest) :
      Spaced (word :: list) (gap ++ word ++ rest)

variable {b : UInt8} {s front back gap w : Bytes} {list before after : List Bytes}

theorem IsGap.nil : IsGap [] := fun _ h => absurd h List.not_mem_nil

theorem IsGap.cons (hb : isSeparator b) (hgap : IsGap gap) : IsGap (b :: gap) :=
  List.forall_mem_cons.mpr ⟨hb, hgap⟩

theorem IsGap.startsApart (h : IsGap gap) : StartsApart gap :=
  fun _ hb => h _ (List.mem_of_mem_head? hb)

theorem IsGap.endsApart (h : IsGap gap) : EndsApart gap :=
  fun _ hb => h _ (List.mem_of_mem_getLast? hb)

theorem StartsApart.cons (hb : isSeparator b) (s : Bytes) : StartsApart (b :: s) := by
  intro c hc
  rw [← Option.some.inj hc]
  exact hb

theorem isWord_singleton (hb : isSeparator b = false) : IsWord [b] where
  ne_nil := List.cons_ne_nil _ _
  isSeparator_eq_false := List.forall_mem_singleton.mpr hb

theorem IsWord.cons (hb : isSeparator b = false) (hw : IsWord w) : IsWord (b :: w) where
  ne_nil := List.cons_ne_nil _ _
  isSeparator_eq_false := List.forall_mem_cons.mpr ⟨hb, hw.isSeparator_eq_false⟩

/-- A word does not begin with a separator. -/
theorem IsWord.not_startsApart (hw : IsWord w) (s : Bytes) : ¬ StartsApart (w ++ s) := by
  intro h
  cases w with
  | nil => exact hw.ne_nil rfl
  | cons b w =>
      have hb := h b rfl
      rw [hw.isSeparator_eq_false b List.mem_cons_self] at hb
      cases hb

/-! ## The words of two texts in one -/

@[simp] theorem words_nil : words [] = [] := rfl

/-- A separator ends what stands before it. -/
theorem words_append_cons (hb : isSeparator b) (front back : Bytes) :
    words (front ++ b :: back) = words front ++ words back := by
  rw [words, List.splitOnP_append_cons front back hb, List.filter_append]
  rfl

theorem words_cons (hb : isSeparator b) (s : Bytes) : words (b :: s) = words s :=
  words_append_cons hb [] s

theorem words_append_of_startsApart (front : Bytes) (hback : StartsApart back) :
    words (front ++ back) = words front ++ words back := by
  cases back with
  | nil => rw [List.append_nil, words_nil, List.append_nil]
  | cons b back => rw [words_append_cons (hback b rfl), words_cons (hback b rfl)]

theorem words_append_of_endsApart (hfront : EndsApart front) (back : Bytes) :
    words (front ++ back) = words front ++ words back := by
  rcases List.eq_nil_or_concat' front with rfl | ⟨init, b, rfl⟩
  · rfl
  · have hb : isSeparator b := hfront b List.getLast?_concat
    rw [List.append_assoc, List.singleton_append, words_append_cons hb, words_append_cons hb,
      words_nil, List.append_nil]

theorem words_of_isGap (hgap : IsGap gap) : words gap = [] := by
  induction gap with
  | nil => rfl
  | cons b gap ih =>
      obtain ⟨hb, hgap⟩ := List.forall_mem_cons.mp hgap
      rw [words_cons hb, ih hgap]

theorem words_of_isWord (hw : IsWord w) : words w = [w] := by
  have hne : (!w.isEmpty) = true := by
    rw [Bool.not_eq_true', List.isEmpty_eq_false_iff]
    exact hw.ne_nil
  rw [words, List.splitOnP_eq_singleton hw.isSeparator_eq_false, List.filter_singleton, hne,
    cond_true]

/-- A run without separators, as long as can be, is a word of the text. -/
theorem words_run (hfront : EndsApart front) (hw : IsWord w) (hback : StartsApart back) :
    words (front ++ w ++ back) = words front ++ w :: words back := by
  rw [words_append_of_startsApart _ hback, words_append_of_endsApart hfront, words_of_isWord hw,
    List.append_assoc, List.singleton_append]

/-! ## Texts and their words -/

theorem Spaced.words_eq (h : Spaced list s) : words s = list := by
  induction h with
  | nil hgap => exact words_of_isGap hgap
  | cons hgap hword _ hapart ih =>
      rw [words_run hgap.endsApart hword hapart, words_of_isGap hgap, ih, List.nil_append]

/-- Every text is gaps and words in turn. -/
theorem exists_spaced (s : Bytes) : ∃ list, Spaced list s := by
  induction s with
  | nil => exact ⟨[], .nil .nil⟩
  | cons b s ih =>
      obtain ⟨list, hspaced⟩ := ih
      cases hb : isSeparator b with
      | true =>
          cases hspaced with
          | nil hgap => exact ⟨[], .nil (hgap.cons hb)⟩
          | cons hgap hword hrest hapart => exact ⟨_, .cons (hgap.cons hb) hword hrest hapart⟩
      | false =>
          have halone := isWord_singleton hb
          cases hspaced with
          | nil hgap => exact ⟨_, .cons .nil halone (.nil hgap) hgap.startsApart⟩
          | @cons gap word rest list hgap hword hrest hapart =>
              -- The byte joins the first word, unless a separator stands before that.
              cases gap with
              | nil => exact ⟨_, .cons .nil (hword.cons hb) hrest hapart⟩
              | cons c gap =>
                  have hc : isSeparator c := hgap c List.mem_cons_self
                  exact ⟨_, .cons .nil halone (.cons hgap hword hrest hapart) (.cons hc _)⟩

theorem words_eq_iff : words s = list ↔ Spaced list s := by
  refine ⟨fun h => ?_, Spaced.words_eq⟩
  obtain ⟨other, hspaced⟩ := exists_spaced s
  rw [← h, hspaced.words_eq]
  exact hspaced

/-- Each word stands in the text between its neighbours. -/
theorem Spaced.exists_run (h : Spaced (before ++ w :: after) s) :
    ∃ front back, s = front ++ w ++ back ∧ EndsApart front ∧ IsWord w ∧ StartsApart back ∧
      Spaced before front ∧ Spaced after back := by
  induction before generalizing s with
  | nil =>
      cases h with
      | @cons gap _ rest _ hgap hword hrest hapart =>
          exact ⟨gap, rest, rfl, hgap.endsApart, hword, hapart, .nil hgap, hrest⟩
  | cons v before ih =>
      cases h with
      | @cons gap _ rest _ hgap hword hrest hapart =>
          obtain ⟨front, back, rfl, hfront, hw, hback, hbefore, hafter⟩ := ih hrest
          -- What stands between two words is not empty.
          have hne : front ≠ [] := by
            rintro rfl
            rw [List.nil_append] at hapart
            exact hw.not_startsApart back hapart
          refine ⟨gap ++ v ++ front, back, by simp only [List.append_assoc], ?_, hw, hback, ?_,
            hafter⟩
          · intro b hb
            rw [List.getLast?_append_of_ne_nil _ hne] at hb
            exact hfront b hb
          · refine .cons hgap hword hbefore ?_
            intro b hb
            apply hapart b
            rw [List.append_assoc, List.head?_append_of_ne_nil _ hne]
            exact hb

theorem words_eq_append_cons_iff :
    words s = before ++ w :: after ↔
      ∃ front back, s = front ++ w ++ back ∧ EndsApart front ∧ IsWord w ∧ StartsApart back ∧
        words front = before ∧ words back = after := by
  constructor
  · intro h
    obtain ⟨front, back, hs, hfront, hw, hback, hbefore, hafter⟩ :=
      (words_eq_iff.mp h).exists_run
    exact ⟨front, back, hs, hfront, hw, hback, hbefore.words_eq, hafter.words_eq⟩
  · rintro ⟨front, back, rfl, hfront, hw, hback, rfl, rfl⟩
    exact words_run hfront hw hback

theorem mem_words_iff :
    w ∈ words s ↔
      IsWord w ∧ ∃ front back, s = front ++ w ++ back ∧ EndsApart front ∧ StartsApart back := by
  rw [List.mem_iff_append]
  constructor
  · rintro ⟨before, after, h⟩
    obtain ⟨front, back, hs, hfront, hw, hback, -, -⟩ := words_eq_append_cons_iff.mp h
    exact ⟨hw, front, back, hs, hfront, hback⟩
  · rintro ⟨hw, front, back, rfl, hfront, hback⟩
    exact ⟨_, _, words_run hfront hw hback⟩

/-! ## Searching -/

theorem containsWord_eq (haystack needle : Bytes) :
    containsWord haystack needle =
      (words haystack).contains (needle.takeWhile (!isSeparator ·)) := by
  rw [containsWord]
  cases hempty : (needle.takeWhile (!isSeparator ·)).isEmpty with
  | false => rfl
  | true =>
      have hnot : [] ∉ words haystack := fun hmem => (mem_words_iff.mp hmem).1.ne_nil rfl
      rw [List.isEmpty_iff.mp hempty, List.contains_eq_mem, decide_eq_false hnot]
      rfl

/-- **The words of a text are its runs between separators, and searching finds them.** A search
takes the needle up to its first separator; it succeeds exactly when this part is not empty and
stands in the text with a separator or an end of the text on either side. Where a word stands in
the list, it stands in the text as a run that no separator interrupts and no other byte extends,
with the words before it on its left and the others on its right. A text has the words of a list
exactly when it is these words in order with runs of separators between them, whichever these are.
-/
theorem words_between_separators (haystack needle : Bytes) :
    let word := needle.takeWhile (!isSeparator ·)
    (containsWord haystack needle = true ↔
      word ≠ [] ∧
        ∃ front back, haystack = front ++ word ++ back ∧ EndsApart front ∧ StartsApart back) ∧
    (∀ before w after, words haystack = before ++ w :: after ↔
      ∃ front back, haystack = front ++ w ++ back ∧ EndsApart front ∧ IsWord w ∧
        StartsApart back ∧ words front = before ∧ words back = after) ∧
    (∀ list, words haystack = list ↔ Spaced list haystack) := by
  intro word
  have hfree : ∀ b ∈ word, isSeparator b = false := by
    intro b hb
    have hnot := List.mem_takeWhile_imp hb
    rwa [Bool.not_eq_true'] at hnot
  refine ⟨?_, fun _ _ _ => words_eq_append_cons_iff, fun _ => words_eq_iff⟩
  rw [containsWord_eq, List.contains_iff_mem, mem_words_iff]
  exact and_congr_left fun _ => ⟨IsWord.ne_nil, fun hne => ⟨hne, hfree⟩⟩

end BoundedFormat
