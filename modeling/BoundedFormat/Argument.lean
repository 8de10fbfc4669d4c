import BoundedFormat.Directive.Basic
import BoundedFormat.Firmware.Guid

/-!
# Arguments and slots

A caller hands over one `Argument` per slot. Every argument has a full register `word`; a string
or an identifier is handed over by reference, and its word is the address. A `Slot` holds what a
formatting run keeps of an argument: the word narrowed to the slot's type, and what it refers to.
-/

namespace BoundedFormat

/-- Something in memory, and where it is. -/
structure Reference (α : Type) where
  target : α
  /-- Where the target lies; callers that do not care leave it at some address. -/
  address : Word := 0x1000
deriving DecidableEq, Repr

/-- One argument as supplied by the caller. -/
inductive Argument
  /-- A signed integer in two's complement. -/
  | int (value : Word)
  /-- An unsigned integer. -/
  | uint (value : Word)
  /-- A code value, which need not be a code point. -/
  | char (code : BitVec 32)
  /-- A string, or the null string. -/
  | str (text : Option (Reference Bytes))
  /-- An address. -/
  | ptr (address : Word)
  /-- An identifier, or none. -/
  | guid (id : Option (Reference Guid))
deriving DecidableEq, Repr

/-- What a slot refers to. -/
inductive Referent
  | nothing
  | bytes (text : Bytes)
  | guid (id : Guid)
deriving DecidableEq, Repr

namespace Argument

/-- A signed integer of any width up to a word. -/
def ofSigned {bits : Nat} (value : BitVec bits) : Argument := .int (value.signExtend 64)

/-- An unsigned integer of any width up to a word. -/
def ofUnsigned {bits : Nat} (value : BitVec bits) : Argument := .uint (value.setWidth 64)

/-- The code point of a character. -/
def ofChar (c : Char) : Argument := .char (BitVec.ofNat 32 c.toNat)

/-- A byte string. -/
def ofBytes (text : Bytes) : Argument := .str (some { target := text })

/-- A text in UTF-8. -/
def ofText (text : String) : Argument := ofBytes (textBytes text)

/-- The register word that carries an argument. -/
def word : Argument → Word
  | .int value | .uint value => value
  | .char code => code.setWidth 64
  | .str text => text.elim 0 (·.address)
  | .ptr address => address
  | .guid id => id.elim 0 (·.address)

/-- What an argument refers to. -/
def referent : Argument → Referent
  | .str (some text) => .bytes text.target
  | .guid (some id) => .guid id.target
  | _ => .nothing

end Argument

/-- Width and sign of the value in a slot. -/
inductive SlotType
  | i8
  | i16
  | i32
  | i64
  | u8
  | u16
  | u32
  | u64
deriving DecidableEq, Repr

namespace SlotType

/-- The signed type for a length modifier. -/
def signed : LengthMod → SlotType
  | .none => .i32
  | .hh => .i8
  | .h => .i16
  | .l | .ll | .z => .i64

/-- The unsigned type for a length modifier. -/
def unsigned : LengthMod → SlotType
  | .none => .u32
  | .hh => .u8
  | .h => .u16
  | .l | .ll | .z => .u64

/-- The type of an address. -/
def address : SlotType := .u64

/-- The type of the slot that a conversion reads, if it reads one. -/
def ofConversion? (conversion : Conversion) (length : LengthMod) : Option SlotType :=
  match conversion with
  | .signed => some (signed length)
  | .unsigned | .lowerHex | .upperHex => some (unsigned length)
  | .pointer | .str | .guid | .status => some address
  | .char | .codepoint => some .i32
  | .percent | .literal _ => none

/-- Narrows a word to the type and widens it again, by its sign for the signed types and with
zeros for the others. -/
def narrow (type : SlotType) (word : Word) : Word :=
  match type with
  | .i8 => (word.setWidth 8).signExtend 64
  | .i16 => (word.setWidth 16).signExtend 64
  | .i32 => (word.setWidth 32).signExtend 64
  | .u8 => (word.setWidth 8).setWidth 64
  | .u16 => (word.setWidth 16).setWidth 64
  | .u32 => (word.setWidth 32).setWidth 64
  | .i64 | .u64 => word

end SlotType

/-- The type of the slot that a directive reads, if it reads one. -/
def FormatSpec.slotType? (spec : FormatSpec) : Option SlotType :=
  SlotType.ofConversion? spec.conversion spec.length

/-- A directive has a slot type exactly when it reads an argument. -/
theorem FormatSpec.isSome_slotType? (spec : FormatSpec) :
    spec.slotType?.isSome = spec.takesArgument := by
  unfold slotType? takesArgument
  cases spec.conversion <;> rfl

/-- One typed argument of a formatting run. -/
structure Slot where
  type : SlotType := .i32
  value : Word := 0
  referent : Referent := .nothing
deriving DecidableEq, Repr

/-- Puts an argument into a slot, keeping the slot's type. -/
def Slot.load (slot : Slot) (argument : Argument) : Slot :=
  { type := slot.type, value := slot.type.narrow argument.word, referent := argument.referent }

end BoundedFormat
