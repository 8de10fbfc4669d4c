import BoundedFormat.Bytes

/-!
# Output before it is stored

Formatting produces an `Output`: a list of chunks, each of them bytes or one byte many times over.
A field width may be any machine length, so a fill is never written out; `toBytes` is the view
that says which bytes an output stands for.
-/

namespace BoundedFormat

/-- A stretch of output. -/
inductive Chunk
  | bytes (text : Bytes)
  | fill (byte : UInt8) (count : Nat)
deriving DecidableEq, Repr

namespace Chunk

/-- The bytes that a chunk stands for. -/
def toBytes : Chunk → Bytes
  | .bytes text => text
  | .fill byte count => List.replicate count byte

end Chunk

/-- The output of a formatting run. -/
abbrev Output := List Chunk

namespace Output

/-- The bytes that an output stands for. -/
def toBytes (o : Output) : Bytes := o.flatMap Chunk.toBytes

@[simp] theorem toBytes_nil : toBytes [] = [] := rfl

@[simp] theorem toBytes_cons (c : Chunk) (o : Output) :
    toBytes (c :: o) = c.toBytes ++ toBytes o := rfl

@[simp] theorem toBytes_append (o p : Output) : toBytes (o ++ p) = toBytes o ++ toBytes p :=
  List.flatMap_append

end Output
end BoundedFormat
