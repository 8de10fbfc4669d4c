import BoundedFormat.Proofs.CanonicalNumeral
import BoundedFormat.Proofs.Directive.Plain
import BoundedFormat.Proofs.Meaning

/-!
# Identifiers read back from their text

`Guid.Spells` says what a text has to be to stand for an identifier: groups of lower case
hexadecimal digits of five given lengths, whose numbers are the fields. Every identifier has exactly
one such text, and no two have the same. The main statement is that a `pG` directive that finds its
slot shows this text, whatever its flags, width, precision and length modifier are.
-/

namespace BoundedFormat

open Numeral (value digitOf? hexByte value_append_singleton)
open Numeral.Alphabet (lowerHex)

namespace Guid

/-! ## Digits of a fixed number -/

theorem digitOf?_hexByte : ∀ digit < 16, digitOf? (hexByte (ascii 'a') digit) = some digit := by
  decide +kernel

theorem mem_lowerHex_iff (b : UInt8) :
    b ∈ lowerHex.digits ↔ ∃ digit < 16, b = hexByte (ascii 'a') digit := by
  revert b
  apply Numeral.forall_byte
  decide +kernel

theorem value_append_hexByte (text : Bytes) {digit : ℕ} (h : digit < 16) :
    value 16 (text ++ [hexByte (ascii 'a') digit]) = value 16 text * 16 + digit :=
  value_append_singleton (digitOf?_hexByte digit h) 16 text

/-- A number that fits its digits is read back from them, and the digits are in lower case. -/
theorem fixedHex_spec (digits n : ℕ) (h : n < 16 ^ digits) :
    (∀ b ∈ fixedHex digits n, b ∈ lowerHex.digits) ∧ value 16 (fixedHex digits n) = n := by
  induction digits generalizing n with
  | zero =>
      rw [Nat.lt_one_iff.mp h]
      exact ⟨by simp [fixedHex], rfl⟩
  | succ digits ih =>
      have hlast : n % 16 < 16 := Nat.mod_lt n (by decide)
      have hfits : n / 16 < 16 ^ digits := Nat.div_lt_of_lt_mul (by rwa [← Nat.pow_succ'])
      obtain ⟨hdigits, hvalue⟩ := ih (n / 16) hfits
      rw [fixedHex, value_append_hexByte _ hlast, hvalue]
      refine ⟨?_, Nat.div_add_mod' n 16⟩
      intro b hb
      rcases List.mem_append.mp hb with hb | hb
      · exact hdigits b hb
      · exact (mem_lowerHex_iff b).mpr ⟨n % 16, hlast, List.mem_singleton.mp hb⟩

/-- Digits in lower case are those of their number. -/
theorem eq_fixedHex {text : Bytes} (hdigits : ∀ b ∈ text, b ∈ lowerHex.digits) :
    text = fixedHex text.length (value 16 text) := by
  induction text using List.reverseRecOn with
  | nil => rfl
  | append_singleton text b ih =>
      have hb : b ∈ lowerHex.digits :=
        hdigits b (List.mem_append_right _ (List.mem_singleton_self b))
      obtain ⟨digit, hdigit, rfl⟩ := (mem_lowerHex_iff b).mp hb
      have hhigh : (value 16 text * 16 + digit) / 16 = value 16 text := by omega
      have hlow : (value 16 text * 16 + digit) % 16 = digit := by omega
      rw [value_append_hexByte _ hdigit, List.length_append, List.length_singleton, fixedHex,
        hhigh, hlow, ← ih fun c hc => hdigits c (List.mem_append_left _ hc)]

/-! ## Digits in pairs -/

/-- The numbers of the digits of a text, two by two. -/
def pairValues : Bytes → List ℕ
  | high :: low :: rest => value 16 [high, low] :: pairValues rest
  | _ => []

theorem fixedHex_two (n : ℕ) :
    fixedHex 2 n = [hexByte (ascii 'a') (n / 16 % 16), hexByte (ascii 'a') (n % 16)] := rfl

theorem hexBytes_cons (b : UInt8) (bytes : Bytes) :
    hexBytes (b :: bytes) = fixedHex 2 b.toNat ++ hexBytes bytes := rfl

@[simp] theorem length_hexBytes (bytes : Bytes) : (hexBytes bytes).length = 2 * bytes.length := by
  induction bytes with
  | nil => rfl
  | cons b bytes ih =>
      rw [hexBytes_cons, List.length_append, length_fixedHex, ih, List.length_cons]
      omega

/-- Bytes are read back from their pairs of digits. -/
theorem hexBytes_spec (bytes : Bytes) :
    (∀ b ∈ hexBytes bytes, b ∈ lowerHex.digits) ∧
      pairValues (hexBytes bytes) = bytes.map UInt8.toNat := by
  induction bytes with
  | nil => exact ⟨by simp [hexBytes], rfl⟩
  | cons b bytes ih =>
      obtain ⟨hdigits, hvalue⟩ := fixedHex_spec 2 b.toNat b.toNat_lt
      refine ⟨?_, ?_⟩
      · intro c hc
        rw [hexBytes_cons] at hc
        exact (List.mem_append.mp hc).elim (hdigits c) (ih.1 c)
      · rw [fixedHex_two] at hvalue
        rw [hexBytes_cons, fixedHex_two, List.cons_append, List.cons_append, List.nil_append,
          pairValues, hvalue, ih.2, List.map_cons]

/-- Pairs of digits in lower case are those of the bytes that they stand for. -/
theorem eq_hexBytes {text bytes : Bytes} (hdigits : ∀ b ∈ text, b ∈ lowerHex.digits)
    (hlength : text.length = 2 * bytes.length)
    (hvalues : pairValues text = bytes.map UInt8.toNat) : text = hexBytes bytes := by
  induction bytes generalizing text with
  | nil => exact List.eq_nil_of_length_eq_zero hlength
  | cons b bytes ih =>
      obtain ⟨high, low, rest, rfl⟩ : ∃ high low rest, text = high :: low :: rest := by
        rcases text with _ | ⟨high, _ | ⟨low, rest⟩⟩
        · simp at hlength
        · simp at hlength
          omega
        · exact ⟨high, low, rest, rfl⟩
      rw [pairValues, List.map_cons, List.cons.injEq] at hvalues
      have hpair : [high, low] = fixedHex 2 b.toNat := by
        rw [← hvalues.1]
        exact eq_fixedHex fun c hc => hdigits c (List.mem_append_left rest hc)
      have hrest : rest = hexBytes bytes := by
        refine ih (fun c hc => hdigits c (by simp [hc])) ?_ hvalues.2
        simp only [List.length_cons] at hlength
        omega
      rw [hrest, hexBytes_cons, ← hpair]
      rfl

/-! ## The text of an identifier -/

/-- The five groups of digits of an identifier. -/
def groups (g : Guid) : List Bytes :=
  [fixedHex 8 g.data1.toNat, fixedHex 4 g.data2.toNat, fixedHex 4 g.data3.toNat,
    hexBytes (g.data4.toList.take 2), hexBytes (g.data4.toList.drop 2)]

/-- A text stands for an identifier: its groups have their lengths and are lower case hexadecimal
digits, the first three are the integer fields, and the others, two digits at a time, the bytes. -/
structure Spells (text : Bytes) (g : Guid) : Prop where
  lengths : (text.splitOn (ascii '-')).map List.length = [8, 4, 4, 4, 12]
  digits : ∀ group ∈ text.splitOn (ascii '-'), ∀ b ∈ group, b ∈ lowerHex.digits
  fields : ((text.splitOn (ascii '-')).take 3).map (value 16) =
    [g.data1.toNat, g.data2.toNat, g.data3.toNat]
  bytes : pairValues ((text.splitOn (ascii '-')).drop 3).flatten =
    g.data4.toList.map UInt8.toNat

theorem print_eq (g : Guid) : g.print = [ascii '-'].intercalate g.groups := by
  simp [print, groups, List.intercalate]

theorem hexBytes_append (front back : Bytes) :
    hexBytes (front ++ back) = hexBytes front ++ hexBytes back :=
  List.flatMap_append

theorem hexBytes_groups (g : Guid) :
    hexBytes (g.data4.toList.take 2) ++ hexBytes (g.data4.toList.drop 2) =
      hexBytes g.data4.toList := by
  rw [← hexBytes_append, List.take_append_drop]

theorem length_groups (g : Guid) : g.groups.map List.length = [8, 4, 4, 4, 12] := by
  simp [groups]

theorem digits_groups (g : Guid) : ∀ group ∈ g.groups, ∀ b ∈ group, b ∈ lowerHex.digits := by
  have hdata1 := (fixedHex_spec 8 g.data1.toNat g.data1.isLt).1
  have hdata2 := (fixedHex_spec 4 g.data2.toNat g.data2.isLt).1
  have hdata3 := (fixedHex_spec 4 g.data3.toNat g.data3.isLt).1
  have hfront := (hexBytes_spec (g.data4.toList.take 2)).1
  have hback := (hexBytes_spec (g.data4.toList.drop 2)).1
  intro group hgroup
  simp only [groups, List.mem_cons, List.not_mem_nil, or_false] at hgroup
  rcases hgroup with rfl | rfl | rfl | rfl | rfl
  · exact hdata1
  · exact hdata2
  · exact hdata3
  · exact hfront
  · exact hback

/-- The marks between the groups are none of the digits. -/
theorem splitOn_print (g : Guid) : g.print.splitOn (ascii '-') = g.groups := by
  have hmark : ascii '-' ∉ lowerHex.digits := by decide +kernel
  rw [print_eq]
  refine List.splitOn_intercalate _ ?_ (List.cons_ne_nil _ _)
  intro group hgroup hmem
  exact hmark (g.digits_groups group hgroup _ hmem)

theorem length_print (g : Guid) : g.print.length = 36 := by
  simp [print]

theorem spells_print (g : Guid) : Spells g.print g where
  lengths := by rw [splitOn_print, length_groups]
  digits := by
    rw [splitOn_print]
    exact g.digits_groups
  fields := by
    have hdata1 := (fixedHex_spec 8 g.data1.toNat g.data1.isLt).2
    have hdata2 := (fixedHex_spec 4 g.data2.toNat g.data2.isLt).2
    have hdata3 := (fixedHex_spec 4 g.data3.toNat g.data3.isLt).2
    rw [splitOn_print, groups, List.take_succ_cons, List.take_succ_cons, List.take_succ_cons,
      List.take_zero, List.map_cons, List.map_cons, List.map_cons, hdata1, hdata2, hdata3]
    rfl
  bytes := by
    have hflatten : (g.groups.drop 3).flatten = hexBytes g.data4.toList := by
      rw [← hexBytes_groups]
      simp [groups]
    rw [splitOn_print, hflatten, (hexBytes_spec _).2]

/-- There is no other text for an identifier. -/
theorem Spells.eq_print {text : Bytes} {g : Guid} (h : Spells text g) : text = g.print := by
  obtain ⟨a, b, c, d, e, hsplit⟩ : ∃ a b c d e, text.splitOn (ascii '-') = [a, b, c, d, e] := by
    have hlength := congrArg List.length h.lengths
    rw [List.length_map] at hlength
    match hsplit : text.splitOn (ascii '-') with
    | [a, b, c, d, e] => exact ⟨a, b, c, d, e, rfl⟩
    | [] | [_] | [_, _] | [_, _, _] | [_, _, _, _] | _ :: _ :: _ :: _ :: _ :: _ :: _ =>
        rw [hsplit] at hlength
        simp at hlength
  obtain ⟨hlengths, hdigits, hfields, hbytes⟩ := h
  rw [hsplit] at hlengths hdigits hfields hbytes
  simp only [List.map_cons, List.map_nil, List.cons.injEq, and_true] at hlengths
  simp only [List.take_succ_cons, List.take_zero, List.map_cons, List.map_nil, List.cons.injEq,
    and_true] at hfields
  obtain ⟨ha, hb, hc, hd, he⟩ := hlengths
  obtain ⟨hdata1, hdata2, hdata3⟩ := hfields
  have hnumber : ∀ group ∈ [a, b, c, d, e], group = fixedHex group.length (value 16 group) :=
    fun group hgroup => eq_fixedHex (hdigits group hgroup)
  have hdata4 : d ++ e = hexBytes g.data4.toList := by
    refine eq_hexBytes ?_ ?_ ?_
    · intro byte hbyte
      rcases List.mem_append.mp hbyte with hmem | hmem
      · exact hdigits d (by simp) byte hmem
      · exact hdigits e (by simp) byte hmem
    · rw [List.length_append, hd, he, Vector.length_toList]
    · simpa using hbytes
  rw [← hexBytes_groups] at hdata4
  have hfront : d.length = (hexBytes (g.data4.toList.take 2)).length := by
    simp [hd]
  obtain ⟨rfl, rfl⟩ := List.append_inj hdata4 hfront
  have hjoined : [ascii '-'].intercalate (text.splitOn (ascii '-')) = text :=
    List.intercalate_splitOn _
  rw [← hjoined, hsplit, print_eq, groups, hnumber a (by simp), hnumber b (by simp),
    hnumber c (by simp), ha, hb, hc, hdata1, hdata2, hdata3]

/-- A text is read back as one identifier at most. -/
theorem Spells.unique {text : Bytes} {g h : Guid} (hg : Spells text g) (hh : Spells text h) :
    g = h := by
  have hfields := hg.fields.symm.trans hh.fields
  have hbytes := hg.bytes.symm.trans hh.bytes
  simp only [List.cons.injEq, and_true] at hfields
  have hdata4 : g.data4.toList = h.data4.toList :=
    List.map_injective_iff.mpr (fun _ _ => UInt8.toNat_inj.mp) hbytes
  obtain ⟨hdata1, hdata2, hdata3⟩ := hfields
  cases g
  cases h
  rw [mk.injEq]
  exact ⟨BitVec.eq_of_toNat_eq hdata1, BitVec.eq_of_toNat_eq hdata2, BitVec.eq_of_toNat_eq hdata3,
    Vector.toList_inj.mp hdata4⟩

theorem spells_iff {text : Bytes} {g : Guid} : Spells text g ↔ text = g.print := by
  refine ⟨Spells.eq_print, ?_⟩
  rintro rfl
  exact g.spells_print

theorem print_inj {g h : Guid} : g.print = h.print ↔ g = h := by
  refine ⟨?_, congrArg print⟩
  intro heq
  exact g.spells_print.unique (heq ▸ h.spells_print)

end Guid

/-! ## Directives for identifiers -/

/-- A slot in use holds what its argument refers to. -/
theorem ArgumentList.exists_referent {dialect : Dialect} {heap : Heap} {format : Bytes}
    {arguments : List Argument} {index : ℕ}
    (h : index < (collect dialect format arguments heap).1.size) :
    ∃ argument slot, arguments[index]? = some argument ∧
      (collect dialect format arguments heap).1.get? index = some slot ∧
      slot.referent = argument.referent := by
  have hfits := fits_collect dialect format arguments heap
  obtain ⟨slot, hslot⟩ := Option.ne_none_iff_exists'.mp
    (mt (get?_eq_none_iff hfits index).mp (Nat.not_le_of_lt h))
  have hloaded := hslot
  rw [get?_collect] at hloaded
  split at hloaded
  · obtain ⟨argument, hargument, rfl⟩ := Option.map_eq_some_iff.mp hloaded
    exact ⟨argument, _, hargument, hslot, rfl⟩
  · cases hloaded

theorem toBytes_renderSlot_guid {spec : FormatSpec} (h : spec.conversion = .guid) (slot : Slot) :
    (renderSlot spec slot).toBytes = (renderGuid slot.referent).toBytes := by
  rw [renderSlot, h]

/-- **Identifiers are shown in full.** The letters `pG` stand for an identifier behind every
position, flag, width, precision and length modifier. A call spells out what its directives show;
one for an identifier that finds its slot shows the identifier of the argument, in the only text of
36 bytes that is read back as it, or a fixed text, without padding, if the argument is not an
identifier. Different identifiers have different texts. -/
theorem guid_directive_faithful (heap : Heap) (format : Bytes) (arguments : List Argument) :
    let list := (ArgumentList.collect .firmware format arguments heap).1
    let shown (ordinal : ℕ) (spec : FormatSpec) : Bytes :=
      slotBytes spec (list.read? ordinal spec)
    (∀ t : DirectiveText, t.Plain → t.letter = ascii 'p' → ∀ rest,
      FormatSpec.read? .firmware (t.toBytes ++ ascii 'G' :: rest) =
        some ({ t.spec with conversion := .guid }, rest)) ∧
    (formatOutput .firmware heap format arguments).1.toBytes =
      spell shown 0 (pieces .firmware format) ∧
    (∀ ordinal index spec, (argumentSpecs .firmware format)[ordinal]? = some spec →
      spec.conversion = .guid → spec.Names ordinal index → index < list.size →
      ∃ argument, arguments[index]? = some argument ∧
        (∀ g, argument.referent = .guid g →
          (shown ordinal spec).length = 36 ∧
          ∀ text, Guid.Spells text g ↔ text = shown ordinal spec) ∧
        ((∀ g, argument.referent ≠ .guid g) → shown ordinal spec = textBytes "(null)")) ∧
    (∀ text g h, Guid.Spells text g → Guid.Spells text h → g = h) ∧
    ∀ g h : Guid, (renderGuid (.guid g)).toBytes = (renderGuid (.guid h)).toBytes ↔ g = h := by
  intro list shown
  have hguid : ∀ g : Guid, (renderGuid (.guid g)).toBytes = g.print :=
    fun g => List.append_nil g.print
  refine ⟨?_, toBytes_formatOutput .firmware heap format arguments, ?_,
    fun _ _ _ => Guid.Spells.unique, ?_⟩
  · intro t hplain hletter rest
    apply hplain.read?_extended
    rw [hletter]
    decide
  · intro ordinal index spec _ hconversion hnames hindex
    obtain ⟨argument, slot, hargument, hslot, hreferent⟩ := ArgumentList.exists_referent hindex
    have hshown : shown ordinal spec = (renderGuid argument.referent).toBytes := by
      have hread : list.read? ordinal spec = some slot := by
        rw [ArgumentList.read?, (spec.slotIndex?_eq_some_iff ordinal index).mpr hnames]
        exact hslot
      rw [← hreferent, ← toBytes_renderSlot_guid hconversion]
      exact congrArg (slotBytes spec) hread
    refine ⟨argument, hargument, ?_, ?_⟩
    · intro g hg
      rw [hshown, hg, hguid]
      exact ⟨g.length_print, fun _ => Guid.spells_iff⟩
    · intro hnone
      rw [hshown]
      cases hreferent : argument.referent with
      | guid g => exact absurd hreferent (hnone g)
      | nothing | bytes text => exact List.append_nil nullText
  · intro g h
    rw [hguid, hguid]
    exact Guid.print_inj

theorem guid_directive_faithful_positioned :
    let g : Guid := ⟨0xa, 0xb0, 0xc00, #v[0x0d, 0xe0, 0, 1, 2, 3, 4, 0xff]⟩
    let format := textBytes "%2$-040.3hpG|%1$pG"
    let arguments := [.ofText "a", .guid (some { target := g })]
    let list := (ArgumentList.collect .firmware format arguments .system).1
    let laidOut : FormatSpec := ⟨some 2, true, true, 40, some 3, .h, .guid⟩
    let bare : FormatSpec := ⟨some 1, false, false, 0, none, .none, .guid⟩
    argumentSpecs .firmware format = [laidOut, bare] ∧
    laidOut.Names 0 1 ∧ bare.Names 1 0 ∧ list.size = 2 ∧
    Guid.Spells (textBytes "0000000a-00b0-0c00-0de0-0001020304ff") g ∧
    slotBytes bare (list.read? 1 bare) = textBytes "(null)" := by
  intro g format arguments list laidOut bare
  obtain ⟨-, -, hshown, -, -⟩ := guid_directive_faithful .system format arguments
  have hspecs : argumentSpecs .firmware format = [laidOut, bare] := by decide +kernel
  have hfirst : laidOut.Names 0 1 := by decide
  have hsecond : bare.Names 1 0 := by decide
  have hsize : list.size = 2 := by decide +kernel
  obtain ⟨argument, hargument, hguid, -⟩ :=
    hshown 0 1 laidOut (by rw [hspecs]; rfl) rfl hfirst (hsize.symm ▸ by decide)
  obtain ⟨other, hother, -, hmissing⟩ :=
    hshown 1 0 bare (by rw [hspecs]; rfl) rfl hsecond (hsize.symm ▸ by decide)
  refine ⟨hspecs, hfirst, hsecond, hsize, ?_, ?_⟩
  · cases hargument
    have htext : textBytes "0000000a-00b0-0c00-0de0-0001020304ff" =
        slotBytes laidOut (list.read? 0 laidOut) := by decide +kernel
    exact ((hguid g rfl).2 _).mpr htext
  · cases hother
    exact hmissing (by rintro _ ⟨⟩)

end BoundedFormat
