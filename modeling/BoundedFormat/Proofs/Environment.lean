import BoundedFormat.Environment
import BoundedFormat.Proofs.WordSearch
import Mathlib.Data.List.Basic

/-!
# Which conditions a setting asks for

The list of wanted conditions is gone through once, and the first word that takes the condition out
ends it. What comes out depends on the set of the words alone, so neither their order nor how often
they stand there nor what separates them matters, and a word that takes the condition out wins
wherever it stands. For a condition that could be a word itself the same is found by searching.
-/

namespace BoundedFormat

variable {condition w : Bytes} {list list' : List Bytes}

/-! ## The pass over the words -/

/-- No word both asks for a condition and takes it out. -/
theorem ne_negated (hw : w = allConditions ∨ w = condition) : w ≠ negated condition := by
  have hall : allConditions = [ascii 'a', ascii 'l', ascii 'l'] := by decide
  rintro rfl
  rcases hw with hw | hw
  · rw [hall] at hw
    exact absurd (List.cons.inj hw).1 (by decide)
  · exact absurd (congrArg List.length hw) (by simp [negated])

theorem conditionWanted_iff {enabled : Bool} :
    conditionWanted condition enabled list = true ↔
      (enabled = true ∨ allConditions ∈ list ∨ condition ∈ list) ∧ negated condition ∉ list := by
  induction list generalizing enabled with
  | nil => simp [conditionWanted]
  | cons word rest ih =>
      rw [conditionWanted]
      by_cases hasks : word = allConditions ∨ word = condition
      · have hrest : negated condition ∉ word :: rest ↔ negated condition ∉ rest := by
          rw [List.mem_cons, or_iff_right (ne_negated hasks).symm]
        have henabled :
            enabled = true ∨ allConditions ∈ word :: rest ∨ condition ∈ word :: rest := by
          rcases hasks with rfl | rfl
          · exact .inr (.inl List.mem_cons_self)
          · exact .inr (.inr List.mem_cons_self)
        rw [if_pos hasks, ih, hrest]
        exact and_congr_left fun _ => ⟨fun _ => henabled, fun _ => .inl rfl⟩
      · rw [if_neg hasks]
        rw [not_or] at hasks
        by_cases htakes : word = negated condition
        · rw [if_pos htakes, htakes]
          exact ⟨fun h => absurd h Bool.false_ne_true, fun h => absurd List.mem_cons_self h.2⟩
        · rw [if_neg htakes, ih, List.mem_cons, List.mem_cons, List.mem_cons,
            or_iff_right (Ne.symm hasks.1), or_iff_right (Ne.symm hasks.2),
            or_iff_right (Ne.symm htakes)]

/-- The answer is the same for lists that have the same words. -/
theorem conditionWanted_congr (h : ∀ w, w ∈ list ↔ w ∈ list') (enabled : Bool) :
    conditionWanted condition enabled list = conditionWanted condition enabled list' := by
  rw [Bool.eq_iff_iff, conditionWanted_iff, conditionWanted_iff, h, h, h]

/-! ## The setting -/

section Setting

variable {lookup : Lookup} {name value : String}

theorem debugEnabled_of_lookup (h : lookup debugSetting = some value) (name : String) :
    debugEnabled lookup name =
      conditionWanted (textBytes name) false (words (textBytes value)) := by
  rw [debugEnabled, h]

theorem debugEnabled_iff :
    debugEnabled lookup name = true ↔
      ∃ value, lookup debugSetting = some value ∧
        (allConditions ∈ words (textBytes value) ∨ textBytes name ∈ words (textBytes value)) ∧
        negated (textBytes name) ∉ words (textBytes value) := by
  cases h : lookup debugSetting with
  | none =>
      rw [debugEnabled, h]
      simp
  | some value =>
      rw [debugEnabled_of_lookup h, conditionWanted_iff]
      simp

end Setting

/-- A word is searched for as it is. -/
theorem containsWord_of_free {needle : Bytes} (h : ∀ b ∈ needle, isSeparator b = false)
    (haystack : Bytes) : containsWord haystack needle = (words haystack).contains needle := by
  have hwhole : needle.takeWhile (!isSeparator ·) = needle := by
    rw [List.takeWhile_eq_self_iff]
    intro b hb
    rw [h b hb, Bool.not_false]
  rw [containsWord_eq, hwhole]

theorem isSeparator_negated (h : ∀ b ∈ condition, isSeparator b = false) :
    ∀ b ∈ negated condition, isSeparator b = false :=
  List.forall_mem_cons.mpr ⟨by decide, h⟩

theorem isSeparator_allConditions : ∀ b ∈ allConditions, isSeparator b = false := by
  decide +kernel

/-- **What a setting asks for is a matter of its words, and taking out wins.** A condition is wanted
exactly when the setting exists, its words include the condition or the word for all, and not the
condition with a minus sign. So the answer is the same for any two values that have the same words,
in whatever order, however often, and whatever separates them. A value in which a condition without
separators stands as a word with a minus sign takes it out, whatever else the value holds. For such
a condition the answer is what three searches say. -/
theorem debugEnabled_by_words (lookup : Lookup) (name : String) :
    let condition := textBytes name
    (debugEnabled lookup name = true ↔
      ∃ value, lookup debugSetting = some value ∧
        (allConditions ∈ words (textBytes value) ∨ condition ∈ words (textBytes value)) ∧
        negated condition ∉ words (textBytes value)) ∧
    (∀ (other : Lookup) value value' list list',
      lookup debugSetting = some value → other debugSetting = some value' →
      Spaced list (textBytes value) → Spaced list' (textBytes value') →
      (∀ w, w ∈ list ↔ w ∈ list') → debugEnabled other name = debugEnabled lookup name) ∧
    (∀ value front back, lookup debugSetting = some value →
      (∀ b ∈ condition, isSeparator b = false) →
      textBytes value = front ++ negated condition ++ back → EndsApart front → StartsApart back →
      debugEnabled lookup name = false) ∧
    (∀ value, lookup debugSetting = some value → (∀ b ∈ condition, isSeparator b = false) →
      debugEnabled lookup name =
        ((containsWord (textBytes value) allConditions ||
            containsWord (textBytes value) condition) &&
          !containsWord (textBytes value) (negated condition))) := by
  intro condition
  refine ⟨debugEnabled_iff, ?_, ?_, ?_⟩
  · intro other value value' list list' hvalue hvalue' hlist hlist' hmem
    rw [debugEnabled_of_lookup hvalue, debugEnabled_of_lookup hvalue', hlist.words_eq,
      hlist'.words_eq, conditionWanted_congr hmem]
  · intro value front back hvalue hfree hbytes hfront hback
    have hword : IsWord (negated condition) := ⟨List.cons_ne_nil _ _, isSeparator_negated hfree⟩
    have hmem : negated condition ∈ words (textBytes value) :=
      mem_words_iff.mpr ⟨hword, front, back, hbytes, hfront, hback⟩
    rw [debugEnabled_of_lookup hvalue, ← Bool.not_eq_true, conditionWanted_iff]
    exact fun h => h.2 hmem
  · intro value hvalue hfree
    rw [debugEnabled_of_lookup hvalue, containsWord_of_free isSeparator_allConditions,
      containsWord_of_free hfree, containsWord_of_free (isSeparator_negated hfree),
      Bool.eq_iff_iff, conditionWanted_iff]
    simp [condition]

theorem debugEnabled_by_words_reordered :
    let value := "all, -disk\tnet"
    let value' := "net|-disk;all&all"
    let lookup := Variables.get? [(debugSetting, value)]
    let other := Variables.get? [(debugSetting, value')]
    let front := textBytes "all, "
    let back := textBytes "\tnet"
    lookup debugSetting = some value ∧ other debugSetting = some value' ∧
    Spaced (words (textBytes value)) (textBytes value) ∧
    Spaced (words (textBytes value')) (textBytes value') ∧
    (∀ w, w ∈ words (textBytes value) ↔ w ∈ words (textBytes value')) ∧
    (∀ b ∈ textBytes "disk", isSeparator b = false) ∧
    textBytes value = front ++ negated (textBytes "disk") ++ back ∧
    EndsApart front ∧ StartsApart back ∧
    debugEnabled other "disk" = debugEnabled lookup "disk" ∧
    debugEnabled lookup "disk" = false ∧
    debugEnabled lookup "disk" =
      ((containsWord (textBytes value) allConditions ||
          containsWord (textBytes value) (textBytes "disk")) &&
        !containsWord (textBytes value) (negated (textBytes "disk"))) := by
  intro value value' lookup other front back
  have hvalue : lookup debugSetting = some value := by decide +kernel
  have hvalue' : other debugSetting = some value' := by decide +kernel
  have hleft : ∀ w ∈ words (textBytes value), w ∈ words (textBytes value') := by decide +kernel
  have hright : ∀ w ∈ words (textBytes value'), w ∈ words (textBytes value) := by decide +kernel
  have hmem : ∀ w, w ∈ words (textBytes value) ↔ w ∈ words (textBytes value') :=
    fun w => ⟨hleft w, hright w⟩
  have hfree : ∀ b ∈ textBytes "disk", isSeparator b = false := by decide +kernel
  have hbytes : textBytes value = front ++ negated (textBytes "disk") ++ back := by decide +kernel
  have hfront : EndsApart front := by
    rintro b ⟨⟩
    decide +kernel
  have hback : StartsApart back := by
    rintro b ⟨⟩
    decide +kernel
  have hspaced := words_eq_iff.mp (rfl : words (textBytes value) = _)
  have hspaced' := words_eq_iff.mp (rfl : words (textBytes value') = _)
  obtain ⟨-, hsame, htaken, hsearches⟩ := debugEnabled_by_words lookup "disk"
  exact ⟨hvalue, hvalue', hspaced, hspaced', hmem, hfree, hbytes, hfront, hback,
    hsame other value value' _ _ hvalue hvalue' hspaced hspaced' hmem,
    htaken value front back hvalue hfree hbytes hfront hback, hsearches value hvalue hfree⟩

end BoundedFormat
