import BoundedFormat.Proofs.Agreement
import BoundedFormat.Proofs.Directive.Joining
import BoundedFormat.Proofs.Meaning

/-!
# One format behind another

Formats without positions compose. If the first ends with a whole piece that does not run into the
second, the two together read as many arguments as both, and show what the first shows of the
arguments and the second of those that the first leaves.
-/

namespace BoundedFormat

section Joined

variable {dialect : Dialect} {first second : Bytes}

theorem argumentSpecs_append
    (hjoin : pieces dialect (first ++ second) =
      joinPieces (pieces dialect first) (pieces dialect second)) :
    argumentSpecs dialect (first ++ second) =
      argumentSpecs dialect first ++ argumentSpecs dialect second := by
  rw [argumentSpecs, hjoin, filterMap_joinPieces]
  rfl

theorem Sequential.append (hfirst : Sequential dialect first) (hsecond : Sequential dialect second)
    (hjoin : pieces dialect (first ++ second) =
      joinPieces (pieces dialect first) (pieces dialect second)) :
    Sequential dialect (first ++ second) := by
  intro spec hspec
  rw [argumentSpecs_append hjoin, List.mem_append] at hspec
  exact hspec.elim (hfirst spec) (hsecond spec)

/-- What is spelled of arguments from a place on is spelled of the arguments behind that place. -/
theorem spell_drop (arguments : List Argument) (place : ℕ) (pieces : List Piece) :
    spell (fun k spec => arguments[k]?.elim [] spec.meaning) place pieces =
      spell (fun k spec => (arguments.drop place)[k]?.elim [] spec.meaning) 0 pieces := by
  rw [← Nat.add_zero place, spell_shift]
  simp only [List.getElem?_drop, Nat.add_zero]

/-- **Formats compose.** A format without NUL whose last piece is whole is continued with another
that this piece does not run into; neither has positions. The two together have the directives of
both, and show what the first shows of the arguments and the second of those behind them, as many as
the first has directives. Their lengths add, as far as they can be counted. -/
theorem formatOutput_append (dialect : Dialect) (heap : Heap) (first second : Bytes)
    (arguments : List Argument) (hnul : 0 ∉ first)
    (hfirst : Sequential dialect first) (hsecond : Sequential dialect second)
    (hwhole : ∀ raw, .incomplete raw ∉ pieces dialect first)
    (hseam : ∀ spec raw, (pieces dialect first).getLast? = some (.directive spec raw) →
      ∀ b ∈ second.head?, ¬ spec.RunsInto dialect b)
    (hgranted : heap.GrantsSlots dialect (countArguments dialect (first ++ second))) :
    let left := arguments.drop (countArguments dialect first)
    countArguments dialect (first ++ second) =
      countArguments dialect first + countArguments dialect second ∧
    (formatOutput dialect heap (first ++ second) arguments).1.toBytes =
      (formatOutput dialect heap first arguments).1.toBytes ++
        (formatOutput dialect heap second left).1.toBytes ∧
    (formatLength dialect heap (first ++ second) arguments).1 =
      saturate ((formatLength dialect heap first arguments).1 +
        (formatLength dialect heap second left).1) := by
  intro left
  have hjoin := pieces_append hnul hwhole hseam
  have hcount : countArguments dialect (first ++ second) =
      countArguments dialect first + countArguments dialect second := by
    rw [countArguments, argumentSpecs_append hjoin, List.length_append]
    rfl
  have hspelled : ∀ {format : Bytes} (arguments : List Argument), Sequential dialect format →
      countArguments dialect format ≤ countArguments dialect (first ++ second) →
      (formatOutput dialect heap format arguments).1.toBytes =
        spell (fun k spec => arguments[k]?.elim [] spec.meaning) 0 (pieces dialect format) := by
    intro format arguments hsequential hle
    apply toBytes_formatOutput_of_names arguments id (hgranted.mono hle)
    · intro k spec hspec
      exact hsequential.names hspec
    · apply TypesAgree.of_injOn
      intro j _ k _ hjk
      exact hjk
  have hbytes : (formatOutput dialect heap (first ++ second) arguments).1.toBytes =
      (formatOutput dialect heap first arguments).1.toBytes ++
        (formatOutput dialect heap second left).1.toBytes := by
    rw [hspelled arguments (hfirst.append hsecond hjoin) (Nat.le_refl _),
      hspelled arguments hfirst (by omega), hspelled left hsecond (by omega), hjoin,
      spell_joinPieces, Nat.zero_add, ← spell_drop]
    rfl
  refine ⟨hcount, hbytes, ?_⟩
  rw [formatLength_fst, formatLength_fst, formatLength_fst, hbytes, List.length_append,
    saturate_saturate_add, Nat.add_comm, Nat.add_comm _ (saturate _), saturate_saturate_add]

theorem formatOutput_append_unpositioned :
    let first := textBytes "%5d|%z"
    let second := textBytes "-%s|%u"
    let arguments := [.int 42, .ofText "abc"]
    0 ∉ first ∧ Sequential .plain first ∧ Sequential .plain second ∧
    (∀ raw, .incomplete raw ∉ pieces .plain first) ∧
    (∀ spec raw, (pieces .plain first).getLast? = some (.directive spec raw) →
      ∀ b ∈ second.head?, ¬ spec.RunsInto .plain b) ∧
    Heap.system.GrantsSlots .plain (countArguments .plain (first ++ second)) ∧
    (formatOutput .plain .system (first ++ second) arguments).1.toBytes =
      textBytes "   42|z" ++ textBytes "-abc|" := by
  intro first second arguments
  have hpieces : pieces .plain first =
      [.directive ⟨none, false, false, 5, none, .none, .signed⟩ (textBytes "%5d"),
        .literal (textBytes "|"),
        .directive ⟨none, false, false, 0, none, .none, .literal (ascii 'z')⟩
          (textBytes "%z")] := by decide +kernel
  have hwhole : ∀ raw, .incomplete raw ∉ pieces .plain first := by
    rw [hpieces]
    simp
  have hseam : ∀ spec raw, (pieces .plain first).getLast? = some (.directive spec raw) →
      ∀ b ∈ second.head?, ¬ spec.RunsInto .plain b := by
    intro spec raw hlast b hb
    rw [hpieces] at hlast
    cases hlast
    cases hb
    rw [FormatSpec.runsInto_plain]
    decide
  have hnul : 0 ∉ first := by decide +kernel
  have hfirst : Sequential .plain first := by decide +kernel
  have hsecond : Sequential .plain second := by decide +kernel
  have hgranted : Heap.system.GrantsSlots .plain (countArguments .plain (first ++ second)) := by
    decide +kernel
  refine ⟨hnul, hfirst, hsecond, hwhole, hseam, hgranted, ?_⟩
  rw [(formatOutput_append .plain .system first second arguments hnul hfirst hsecond hwhole hseam
    hgranted).2.1]
  decide +kernel

end Joined
end BoundedFormat
