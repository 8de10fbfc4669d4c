import BoundedFormat.Proofs.Concatenation
import BoundedFormat.Proofs.Directive.Plain
import Mathlib.Data.List.SplitBy

/-!
# Encoded code points read back

The first byte of a sequence announces its length, and the bytes behind it are of a kind that never
stands first. So sequences that are put together come apart in one way only, whether one counts from
the front or looks for the bytes that can stand first. `decode` puts the bits of a sequence back
together. The main statement is about what a format of `%C` directives shows: its bytes are cut and
decoded into the code values of the arguments.
-/

namespace BoundedFormat
namespace CodePoint

/-! ## Sequences -/

/-- The length of the sequence that a byte begins, if it can stand first. -/
def announced? (first : UInt8) : Option ℕ :=
  if first < 0x80 then some 1
  else if first < 0xc0 then none
  else if first < 0xe0 then some 2
  else if first < 0xf0 then some 3
  else if first < 0xf8 then some 4
  else none

/-- A byte of the kind that stands behind the first. -/
def IsContinuation (b : UInt8) : Prop := 0x80 ≤ b ∧ b ≤ 0xbf

instance (b : UInt8) : Decidable (IsContinuation b) := inferInstanceAs (Decidable (_ ∧ _))

/-- As many bytes as the first of them announces. What the others are is left open. -/
def IsSequence : Bytes → Prop
  | [] => False
  | first :: rest => announced? first = some (rest.length + 1)

/-- How many bits of a value stand in the first byte, by the number of the bytes behind it. -/
def leadBits : (continuations : ℕ) → ℕ
  | 0 => 7
  | continuations => 6 - continuations

/-- A value with six further bits from each of some bytes. -/
def extend (value : ℕ) (continuations : Bytes) : ℕ :=
  continuations.foldl (fun value b => value * 0x40 + b.toNat % 0x40) value

/-- The value of a sequence. -/
def decode : Bytes → ℕ
  | [] => 0
  | first :: rest => extend (first.toNat % 2 ^ leadBits rest.length) rest

/-- The number of values that fit into so many bytes behind a first. -/
def capacity (continuations : ℕ) : ℕ := 2 ^ leadBits continuations * 0x40 ^ continuations

theorem extend_lt {value bound : ℕ} (h : value < bound) (continuations : Bytes) :
    extend value continuations < bound * 0x40 ^ continuations.length := by
  induction continuations generalizing value bound with
  | nil => simpa [extend] using h
  | cons b continuations ih =>
      have hbits : b.toNat % 0x40 < 0x40 := Nat.mod_lt _ (by decide)
      have hnext : value * 0x40 + b.toNat % 0x40 < bound * 0x40 := by omega
      calc extend value (b :: continuations)
          = extend (value * 0x40 + b.toNat % 0x40) continuations := rfl
        _ < bound * 0x40 * 0x40 ^ continuations.length := ih hnext
        _ = bound * 0x40 ^ (continuations.length + 1) := by rw [Nat.mul_assoc, Nat.pow_succ']

theorem decode_lt (first : UInt8) (rest : Bytes) : decode (first :: rest) < capacity rest.length :=
  extend_lt (Nat.mod_lt _ (Nat.two_pow_pos _)) rest

theorem le_of_announced? {first : UInt8} {length : ℕ} (h : announced? first = some length) :
    length ≤ 4 ∧ ¬ IsContinuation first := by
  have hall : ∀ b : UInt8, ∀ n ∈ announced? b, n ≤ 4 ∧ ¬ IsContinuation b := by
    apply Numeral.forall_byte
    decide +kernel
  exact hall first length h

/-! ## Encoded values -/

/-- The bytes are the sequence of a value: the first announces their number and the others are of
the kind that stands behind it, their bits make up the value, and no sequence of the value is
shorter. -/
structure Encodes (bytes : Bytes) (value : ℕ) : Prop where
  isSequence : IsSequence bytes
  length_le : bytes.length ≤ 4
  head_leads : ∀ b ∈ bytes.head?, ¬ IsContinuation b
  tail_continues : ∀ b ∈ bytes.tail, IsContinuation b
  decode_eq : decode bytes = value
  shortest : ∀ other, IsSequence other → decode other = value → bytes.length ≤ other.length

/-- A byte that stands behind the first, made of its bits. -/
def continuationByte (bits : ℕ) : UInt8 := UInt8.ofNat (0x80 + bits)

theorem continuationByte_spec : ∀ bits < 0x40,
    IsContinuation (continuationByte bits) ∧ (continuationByte bits).toNat % 0x40 = bits := by
  decide +kernel

theorem extend_map_continuationByte {bits : List ℕ} (h : ∀ n ∈ bits, n < 0x40) (value : ℕ) :
    extend value (bits.map continuationByte) =
      bits.foldl (fun value n => value * 0x40 + n) value := by
  rw [extend, List.foldl_map]
  apply List.foldl_ext
  intro value n hn
  rw [(continuationByte_spec n (h n hn)).2]

/-- A first byte that announces the bytes behind it, all of them with bits of the value, makes a
sequence of the value. It is the shortest if fewer bytes do not have room for the value. -/
theorem encodes_of_bits {first : UInt8} {leadValue value : ℕ} (bits : List ℕ)
    (hfirst : announced? first = some (bits.length + 1) ∧
      first.toNat % 2 ^ leadBits bits.length = leadValue)
    (hbits : ∀ n ∈ bits, n < 0x40)
    (hvalue : bits.foldl (fun value n => value * 0x40 + n) leadValue = value)
    (hroom : ∀ fewer < bits.length, capacity fewer ≤ value) :
    Encodes (first :: bits.map continuationByte) value where
  isSequence := by
    rw [IsSequence, List.length_map]
    exact hfirst.1
  length_le := by
    rw [List.length_cons, List.length_map]
    exact (le_of_announced? hfirst.1).1
  head_leads := by
    rintro _ ⟨⟩
    exact (le_of_announced? hfirst.1).2
  tail_continues := by
    intro b hb
    obtain ⟨n, hn, rfl⟩ := List.mem_map.mp hb
    exact (continuationByte_spec n (hbits n hn)).1
  decode_eq := by
    rw [decode, List.length_map, hfirst.2, extend_map_continuationByte hbits, hvalue]
  shortest := by
    rintro (_ | ⟨lead, more⟩) hother hdecode
    · cases hother
    · rw [List.length_cons, List.length_cons, List.length_map, Nat.add_le_add_iff_right]
      -- Fewer bytes, whatever they are, have room for smaller values only.
      by_contra hshort
      have hlt := decode_lt lead more
      have hle := hroom more.length (by omega)
      omega

theorem oneByte_spec : ∀ bits < 0x80, announced? (UInt8.ofNat bits) = some 1 ∧
    (UInt8.ofNat bits).toNat % 2 ^ leadBits 0 = bits := by decide +kernel

theorem twoByteLead_spec : ∀ bits < 0x20, announced? (UInt8.ofNat (0xc0 + bits)) = some 2 ∧
    (UInt8.ofNat (0xc0 + bits)).toNat % 2 ^ leadBits 1 = bits := by decide +kernel

theorem threeByteLead_spec : ∀ bits < 0x10, announced? (UInt8.ofNat (0xe0 + bits)) = some 3 ∧
    (UInt8.ofNat (0xe0 + bits)).toNat % 2 ^ leadBits 2 = bits := by decide +kernel

theorem fourByteLead_spec : ∀ bits < 0x8, announced? (UInt8.ofNat (0xf0 + bits)) = some 4 ∧
    (UInt8.ofNat (0xf0 + bits)).toNat % 2 ^ leadBits 3 = bits := by decide +kernel

/-- The value that is written for a code value: that of a question mark for what is no code
point. -/
def shown (code : ℕ) : ℕ := if code ≤ last then code else (ascii '?').toNat

/-- The encoder writes the sequence of its value. -/
theorem encodes_encode (code : ℕ) : Encodes (encode code) (shown code) := by
  rw [encode_eq, sequence, sequenceValues, shown, last]
  by_cases h1 : code ≤ 0x7f
  · rw [if_pos h1, if_pos (by omega)]
    exact encodes_of_bits [] (oneByte_spec code (by omega)) (by simp) rfl (by simp)
  rw [if_neg h1]
  by_cases h2 : code ≤ 0x7ff
  · have hbelow : ∀ fewer < 1, capacity fewer ≤ 0x80 := by decide
    rw [if_pos h2, if_pos (by omega)]
    refine encodes_of_bits [code % 0x40] (twoByteLead_spec (code / 0x40) (by omega)) ?_ ?_ ?_
    · simp only [List.mem_singleton, forall_eq]
      omega
    · simp only [List.foldl_cons, List.foldl_nil]
      omega
    · intro fewer hfewer
      exact (hbelow fewer hfewer).trans (by omega)
  rw [if_neg h2]
  by_cases h3 : code ≤ 0xffff
  · have hbelow : ∀ fewer < 2, capacity fewer ≤ 0x800 := by decide
    rw [if_pos h3, if_pos (by omega)]
    refine encodes_of_bits [code / 0x40 % 0x40, code % 0x40]
      (threeByteLead_spec (code / 0x1000) (by omega)) ?_ ?_ ?_
    · simp only [List.forall_mem_cons, List.not_mem_nil, false_imp_iff, implies_true, and_true]
      omega
    · simp only [List.foldl_cons, List.foldl_nil]
      omega
    · intro fewer hfewer
      exact (hbelow fewer hfewer).trans (by omega)
  rw [if_neg h3]
  by_cases h4 : code ≤ 0x10ffff
  · have hbelow : ∀ fewer < 3, capacity fewer ≤ 0x10000 := by decide
    rw [if_pos h4, if_pos h4]
    refine encodes_of_bits [code / 0x1000 % 0x40, code / 0x40 % 0x40, code % 0x40]
      (fourByteLead_spec (code / 0x40000) (by omega)) ?_ ?_ ?_
    · simp only [List.forall_mem_cons, List.not_mem_nil, false_imp_iff, implies_true, and_true]
      omega
    · simp only [List.foldl_cons, List.foldl_nil]
      omega
    · intro fewer hfewer
      exact (hbelow fewer hfewer).trans (by omega)
  · rw [if_neg h4, if_neg h4]
    exact encodes_of_bits [] (oneByte_spec 0x3f (by decide)) (by simp) rfl (by simp)

/-- The sequence of a character is its UTF-8. -/
theorem encode_toNat_eq (c : Char) : encode c.toNat = String.utf8EncodeChar c := by
  have hlast : c.toNat ≤ 0x10ffff := by
    have hvalid := c.valid
    rw [UInt32.isValidChar, Nat.isValidChar] at hvalid
    change c.val.toNat ≤ 0x10ffff
    omega
  rw [encode_eq, sequence, sequenceValues, String.utf8EncodeChar, ← Char.toNat.eq_def]
  generalize c.toNat = code at hlast ⊢
  by_cases h1 : code ≤ 0x7f
  · simp only [if_pos h1, List.map_cons, List.map_nil]
  by_cases h2 : code ≤ 0x7ff
  · have hlead : code / 64 % 32 = code / 64 := by omega
    simp only [if_neg h1, if_pos h2, List.map_cons, List.map_nil, hlead, Nat.add_comm]
  by_cases h3 : code ≤ 0xffff
  · have hlead : code / 4096 % 16 = code / 4096 := by omega
    simp only [if_neg h1, if_neg h2, if_pos h3, List.map_cons, List.map_nil, hlead, Nat.add_comm]
  · have hlead : code / 262144 % 8 = code / 262144 := by omega
    simp only [if_neg h1, if_neg h2, if_neg h3, if_pos hlast, List.map_cons, List.map_nil, hlead,
      Nat.add_comm]

/-! ## Sequences put together -/

theorem IsSequence.ne_nil {s : Bytes} (h : IsSequence s) : s ≠ [] := by
  rintro rfl
  exact h

/-- Of two sequences that begin a text, both announce the same length, and so are the same. -/
theorem IsSequence.eq_of_append_eq {s t rest more : Bytes} (hs : IsSequence s) (ht : IsSequence t)
    (h : s ++ rest = t ++ more) : s = t ∧ rest = more := by
  rcases s with _ | ⟨first, s⟩
  · cases hs
  rcases t with _ | ⟨other, t⟩
  · cases ht
  obtain rfl : first = other := (List.cons.inj h).1
  have hlength : some (s.length + 1) = some (t.length + 1) := hs.symm.trans ht
  exact List.append_inj h (Option.some.inj hlength)

/-- A text is put together from sequences in one way only. -/
theorem eq_of_flatten_eq {parts others : List Bytes} (hparts : ∀ part ∈ parts, IsSequence part)
    (hothers : ∀ other ∈ others, IsSequence other) (h : parts.flatten = others.flatten) :
    parts = others := by
  induction parts generalizing others with
  | nil =>
      cases others with
      | nil => rfl
      | cons other others =>
          have hempty := List.append_eq_nil_iff.mp h.symm
          exact absurd hempty.1 (hothers other List.mem_cons_self).ne_nil
  | cons part parts ih =>
      obtain ⟨hpart, hrestparts⟩ := List.forall_mem_cons.mp hparts
      cases others with
      | nil =>
          have hempty := List.append_eq_nil_iff.mp h
          exact absurd hempty.1 hpart.ne_nil
      | cons other others =>
          obtain ⟨hother, hrestothers⟩ := List.forall_mem_cons.mp hothers
          obtain ⟨hsame, hrest⟩ := hpart.eq_of_append_eq hother h
          rw [hsame, ih hrestparts hrestothers hrest]

theorem isChain_continues (first : UInt8) {rest : Bytes} (h : ∀ b ∈ rest, IsContinuation b) :
    List.IsChain (fun _ b => decide (IsContinuation b) = true) (first :: rest) := by
  induction rest generalizing first with
  | nil => exact .singleton first
  | cons b rest ih =>
      obtain ⟨hb, hrest⟩ := List.forall_mem_cons.mp h
      exact .cons_cons (decide_eq_true hb) (ih b hrest)

/-- **Sequences synchronise.** Cutting a text of encoded values before every byte that is no
continuation gives the sequences that it was put together from. -/
theorem splitBy_flatten {parts : List Bytes} (h : ∀ part ∈ parts, ∃ value, Encodes part value) :
    parts.flatten.splitBy (fun _ b => decide (IsContinuation b)) = parts := by
  apply List.splitBy_flatten
  · intro hnil
    obtain ⟨value, hvalue⟩ := h [] hnil
    exact hvalue.isSequence
  · rintro part hpart
    obtain ⟨value, hvalue⟩ := h part hpart
    cases part with
    | nil => exact .nil
    | cons first rest => exact isChain_continues first hvalue.tail_continues
  · apply List.Pairwise.isChain
    apply List.pairwise_of_forall_mem_list
    intro before hbefore part hpart
    obtain ⟨_, hbefore⟩ := h before hbefore
    obtain ⟨_, hpart⟩ := h part hpart
    refine ⟨hbefore.isSequence.ne_nil, hpart.isSequence.ne_nil, decide_eq_false ?_⟩
    exact hpart.head_leads _ (List.head?_eq_some_head _)

end CodePoint

/-! ## Formats of code point directives -/

/-- The directive `%C`. -/
def codepointText : DirectiveText where
  position := none
  field := { minus := false, width := [], precision := none }
  length := .none
  letter := ascii 'C'
  second := none

/-- The format of `%C` so many times. -/
def codepointFormat (count : ℕ) : Bytes := (List.replicate count (textBytes "%C")).flatten

theorem codepointText_plain : codepointText.Plain where
  position_digits := by simp [codepointText]
  width_digits := by simp [codepointText]
  precision_digits := by simp [codepointText]
  before_z := by simp [codepointText]
  letter_digit := by decide
  letter_free := by decide
  no_second := rfl

/-- A format of `%C` is read as its directives, in either dialect. -/
theorem splits_codepointFormat (dialect : Dialect) (count : ℕ) :
    Splits dialect (codepointFormat count)
      (List.replicate count (.directive codepointText.spec (textBytes "%C"))) := by
  induction count with
  | zero => exact .nil
  | succ count ih =>
      have hends : codepointText.EndsBefore dialect (codepointFormat count).head? := by
        apply codepointText_plain.endsBefore
        -- Also in the firmware dialect no second letter belongs to a `C`.
        rintro b - ⟨-, hextended⟩
        cases hextended
      exact .directive hends ih

theorem pieces_codepointFormat (dialect : Dialect) (count : ℕ) :
    pieces dialect (codepointFormat count) =
      List.replicate count (.directive codepointText.spec (textBytes "%C")) := by
  have hnul : 0 ∉ codepointFormat count := by
    intro hmem
    obtain ⟨part, hpart, hmem⟩ := List.mem_flatten.mp hmem
    rw [List.eq_of_mem_replicate hpart] at hmem
    revert hmem
    decide +kernel
  rw [pieces, untilNul_eq_self hnul, splitPieces_eq_iff]
  exact splits_codepointFormat dialect count

theorem argumentSpecs_codepointFormat (dialect : Dialect) (count : ℕ) :
    argumentSpecs dialect (codepointFormat count) = List.replicate count codepointText.spec := by
  have hspec : (Piece.directive codepointText.spec (textBytes "%C")).argumentSpec? =
      some codepointText.spec := rfl
  rw [argumentSpecs, pieces_codepointFormat, List.filterMap_replicate_of_some hspec]

theorem countArguments_codepointFormat (dialect : Dialect) (count : ℕ) :
    countArguments dialect (codepointFormat count) = count := by
  rw [countArguments, argumentSpecs_codepointFormat, List.length_replicate]

theorem spell_codepointFormat (arguments : List Argument) :
    spell (fun k spec => arguments[k]?.elim [] spec.meaning) 0
        (List.replicate arguments.length (.directive codepointText.spec (textBytes "%C"))) =
      (arguments.map codepointText.spec.meaning).flatten := by
  induction arguments with
  | nil => rfl
  | cons argument arguments ih =>
      rw [List.length_cons, List.replicate_succ, spell_cons_some rfl, spell_drop]
      exact congrArg (codepointText.spec.meaning argument ++ ·) ih

/-- A format of `%C` shows the sequences of the arguments' low halves. -/
theorem toBytes_formatOutput_codepointFormat {dialect : Dialect} {heap : Heap}
    {arguments : List Argument} (hgranted : heap.GrantsSlots dialect arguments.length) :
    (formatOutput dialect heap (codepointFormat arguments.length) arguments).1.toBytes =
      (arguments.map fun argument =>
        CodePoint.encode (argument.word.setWidth 32).toNat).flatten := by
  have hspecs := argumentSpecs_codepointFormat dialect arguments.length
  have hcount := countArguments_codepointFormat dialect arguments.length
  have hmeaning : codepointText.spec.meaning =
      fun argument => CodePoint.encode (argument.word.setWidth 32).toNat := by
    funext argument
    rw [CodePoint.encode_eq, BitVec.toNat_setWidth]
    rfl
  have hsequential : Sequential dialect (codepointFormat arguments.length) := by
    intro spec hmem
    rw [hspecs] at hmem
    rw [List.eq_of_mem_replicate hmem]
    rfl
  rw [← hcount] at hgranted
  rw [toBytes_formatOutput_of_names arguments id hgranted, pieces_codepointFormat, ← hmeaning]
  · exact spell_codepointFormat arguments
  · intro k spec hk
    exact hsequential.names hk
  · apply TypesAgree.of_injOn
    intro j _ k _ hjk
    exact hjk

/-- **What `%C` shows can be read back.** The bytes are those of the code values one after another.
They are cut into sequences in exactly one way by the announced lengths, and cutting them before
every byte that is no continuation byte is this way. Each sequence is the shortest of its value, and
has a first byte of one kind and up to three bytes of another; it decodes to the code value, or to a
question mark past the last code point. The sequence of a character is its UTF-8. -/
theorem codepointFormat_decodes_uniquely (dialect : Dialect) (heap : Heap)
    (codes : List (BitVec 32)) (arguments : List Argument)
    (hcodes : arguments.map (fun argument => argument.word.setWidth 32) = codes)
    (hgranted : heap.GrantsSlots dialect codes.length) :
    let output := (formatOutput dialect heap (codepointFormat codes.length) arguments).1.toBytes
    let parts := codes.map fun code => CodePoint.encode code.toNat
    output = parts.flatten ∧
    (∀ others : List Bytes,
      others.flatten = output ∧ (∀ other ∈ others, CodePoint.IsSequence other) ↔
        others = parts) ∧
    output.splitBy (fun _ b => decide (CodePoint.IsContinuation b)) = parts ∧
    parts.map CodePoint.decode = codes.map (fun code => CodePoint.shown code.toNat) ∧
    (∀ code ∈ codes, CodePoint.Encodes (CodePoint.encode code.toNat)
      (CodePoint.shown code.toNat)) ∧
    ∀ c : Char, CodePoint.encode c.toNat = String.utf8EncodeChar c := by
  intro output parts
  have houtput : output = parts.flatten := by
    subst hcodes
    rw [List.length_map] at hgranted
    simp only [output, parts, List.length_map, List.map_map]
    exact toBytes_formatOutput_codepointFormat hgranted
  have hencodes : ∀ part ∈ parts, ∃ value, CodePoint.Encodes part value := by
    intro part hpart
    obtain ⟨code, -, rfl⟩ := List.mem_map.mp hpart
    exact ⟨_, CodePoint.encodes_encode code.toNat⟩
  have hsequences : ∀ part ∈ parts, CodePoint.IsSequence part := by
    intro part hpart
    obtain ⟨value, hvalue⟩ := hencodes part hpart
    exact hvalue.isSequence
  refine ⟨houtput, ?_, ?_, ?_, ?_, CodePoint.encode_toNat_eq⟩
  · intro others
    constructor
    · rintro ⟨hflatten, hothers⟩
      exact CodePoint.eq_of_flatten_eq hothers hsequences (hflatten.trans houtput)
    · rintro rfl
      exact ⟨houtput.symm, hsequences⟩
  · rw [houtput]
    exact CodePoint.splitBy_flatten hencodes
  · rw [List.map_map]
    apply List.map_congr_left
    intro code _
    exact (CodePoint.encodes_encode code.toNat).decode_eq
  · intro code _
    exact CodePoint.encodes_encode code.toNat

theorem codepointFormat_decodes_uniquely_spilled :
    let codes : List (BitVec 32) :=
      [0x7f, 0x80, 0x7ff, 0x800, 0xd800, 0xffff, 0x10000, 0x10ffff, 0x110000] ++
        List.replicate 24 0xffffffff
    let arguments : List Argument :=
      [.char 0x7f, .char 0x80, .char 0x7ff, .char 0x800, .char 0xd800, .char 0xffff,
        .char 0x10000, .char 0x10ffff, .char 0x110000] ++ List.replicate 24 (.int (-1))
    let heap : Heap := .budget { remaining := 1056 }
    let output := (formatOutput .plain heap (codepointFormat codes.length) arguments).1.toBytes
    arguments.map (fun argument => argument.word.setWidth 32) = codes ∧
    heap.GrantsSlots .plain codes.length ∧
    (output.splitBy fun _ b => decide (CodePoint.IsContinuation b)).map CodePoint.decode =
      [0x7f, 0x80, 0x7ff, 0x800, 0xd800, 0xffff, 0x10000, 0x10ffff] ++ List.replicate 25 0x3f := by
  intro codes arguments heap output
  have hcodes : arguments.map (fun argument => argument.word.setWidth 32) = codes := by
    decide +kernel
  have hgranted : heap.GrantsSlots .plain codes.length := by decide +kernel
  obtain ⟨-, -, hsplit, hdecode, -, -⟩ :=
    codepointFormat_decodes_uniquely .plain heap codes arguments hcodes hgranted
  refine ⟨hcodes, hgranted, ?_⟩
  rw [hsplit, hdecode]
  decide +kernel

end BoundedFormat
