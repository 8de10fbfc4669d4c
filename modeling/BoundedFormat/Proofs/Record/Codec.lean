import BoundedFormat.Bytes
import BoundedFormat.Proofs.Json.Line
import BoundedFormat.Proofs.Json.RoundTrip
import BoundedFormat.Record.Codec

/-!
# What is asked of a codec

A record is encoded as the object of its fields, and decoded from any object that holds them,
whatever their order. Writer and reader are inverse on objects of plain values; the writer escapes
control characters and puts nothing around an object. Each of these is a property of its own, since
not all results need all of them. The standard codec has them all: the fields of a record are
written in an order of their own and come back in the order of their keys, which a look-up does not
tell, since no two fields have the same key.
-/

namespace BoundedFormat

namespace Record

/-! ## Fields -/

theorem lookup_optionalField {α : Type} (key other : String) (encode : α → Json)
    (value : Option α) :
    (optionalField key encode value).lookup other =
      if other = key then value.map encode else none := by
  cases value with
  | none => exact (ite_self none).symm
  | some a => exact Json.lookup_cons_eq key other (encode a) []

/-- The keys of the fields that a record can have. -/
def fieldKeys : List String :=
  ["timestamp", "trace_id", "level", "event", "format", "length", "capacity", "outcome",
   "latency_ns", "details"]

theorem map_fst_optionalField_sublist {α : Type} (key : String) (encode : α → Json)
    (value : Option α) : ((optionalField key encode value).map Prod.fst).Sublist [key] := by
  cases value with
  | none => exact List.nil_sublist [key]
  | some a => exact List.Sublist.refl [key]

theorem nodup_fields (r : Record) : (r.fields.map Prod.fst).Nodup := by
  have hkeys : (r.fields.map Prod.fst).Sublist fieldKeys := by
    simp only [fields, List.map_append, List.append_assoc]
    refine List.Sublist.append (.refl _) ?_
    refine .append (map_fst_optionalField_sublist "format" ..) ?_
    refine .append (map_fst_optionalField_sublist "length" ..) ?_
    refine .append (map_fst_optionalField_sublist "capacity" ..) ?_
    refine .append (map_fst_optionalField_sublist "outcome" ..) ?_
    exact .append (map_fst_optionalField_sublist "latency_ns" ..)
      (map_fst_optionalField_sublist "details" ..)
  exact hkeys.nodup (by decide)

theorem get?_arranged_fields (r : Record) (key : String) :
    (Json.object (Json.arranged r.fields)).get? key = r.fields.lookup key :=
  Json.lookup_arranged r.nodup_fields key

/-- An object holds the fields of a record, by name. -/
structure HeldBy (r : Record) (object : Json) : Prop where
  timestamp : object.get? "timestamp" = some (.string r.timestamp)
  traceId : object.get? "trace_id" = some (.string r.traceId)
  level : object.get? "level" = some (.string r.level.name)
  event : object.get? "event" = some (.string r.event)
  format : object.get? "format" = r.format.map .string
  length : object.get? "length" = r.length.map naturalJson
  capacity : object.get? "capacity" = r.capacity.map naturalJson
  outcome : object.get? "outcome" = r.outcome.map fun o => .string o.name
  latency : object.get? "latency_ns" = r.latency.map naturalJson
  details : object.get? "details" = r.details

theorem heldBy_arranged (r : Record) : r.HeldBy (.object (Json.arranged r.fields)) := by
  constructor <;> rw [r.get?_arranged_fields] <;>
    simp [fields, List.lookup_append, lookup_optionalField, Json.lookup_cons_eq]

/-- The numbers of a record are machine numbers, and its details are a plain value that leaves room
for the object around it. -/
structure Representable (r : Record) : Prop where
  length : ∀ n ∈ r.length, n ≤ maxLength
  capacity : ∀ n ∈ r.capacity, n ≤ maxLength
  latency : ∀ n ∈ r.latency, n ≤ maxLength
  details : ∀ v ∈ r.details, Json.Plain 100 v

theorem plain_naturalJson {n : ℕ} (h : n ≤ maxLength) (depth : ℕ) :
    Json.Plain depth (naturalJson n) := by
  have hroom : maxLength = Json.maxSignificand := rfl
  refine .integer ⟨?_, ?_⟩ <;> omega

theorem forall_mem_optionalField {α : Type} {p : Json → Prop} {key : String} {encode : α → Json}
    {value : Option α} (h : ∀ a ∈ value, p (encode a)) :
    ∀ m ∈ optionalField key encode value, p m.2 := by
  intro m hm
  cases value with
  | none => cases hm
  | some a =>
      rw [List.mem_singleton.mp hm]
      exact h a rfl

theorem Representable.plain_fields {r : Record} (h : r.Representable) :
    ∀ m ∈ r.fields, Json.Plain 100 m.2 := by
  simp only [fields, List.forall_mem_append]
  refine ⟨⟨⟨⟨⟨⟨?_, ?_⟩, ?_⟩, ?_⟩, ?_⟩, ?_⟩, ?_⟩
  · simp only [List.forall_mem_cons]
    exact ⟨.string _, .string _, .string _, .string _, fun m hm => by cases hm⟩
  · exact forall_mem_optionalField fun text _ => .string text
  · exact forall_mem_optionalField fun n hn => plain_naturalJson (h.length n hn) 100
  · exact forall_mem_optionalField fun n hn => plain_naturalJson (h.capacity n hn) 100
  · exact forall_mem_optionalField fun outcome _ => .string outcome.name
  · exact forall_mem_optionalField fun n hn => plain_naturalJson (h.latency n hn) 100
  · exact forall_mem_optionalField h.details

/-- The record that comes back of a record: details that are null come back as none. -/
def asRead (r : Record) : Record :=
  { r with details := match r.details with | some .null => none | details => details }

/-! ## Laws -/

namespace Codec

variable (codec : Codec)

/-- A record is encoded as the object of its fields. -/
def EncodesFields : Prop := ∀ r : Record, codec.encode r = .object r.fields

/-- An object that holds the fields of a record is decoded as the record. -/
def DecodesFields : Prop :=
  ∀ (r : Record) (object : Json), r.Representable → r.HeldBy object →
    codec.decode? object = some r.asRead

/-- The text of an object of plain values is read back, with the members in the order of their
keys. -/
def Inverse : Prop :=
  ∀ members : List (String × Json), (members.map Prod.fst).Nodup →
    (∀ m ∈ members, Json.Plain 100 m.2) →
    codec.read? (codec.write (.object members)) = some (.object (Json.arranged members))

/-- No text has a control character. -/
def EscapesControls : Prop := ∀ v : Json, Json.Printable (codec.write v).toList

/-- Nothing stands around the braces of an object. -/
def Braces : Prop :=
  ∀ members : List (String × Json), ∃ body,
    (codec.write (.object members)).toList = '\x7b' :: (body ++ ['\x7d'])

/-- What is written can be read back. -/
structure Faithful : Prop where
  encodes : codec.EncodesFields
  inverse : codec.Inverse
  decodes : codec.DecodesFields

/-- Each text is one line, with no blanks around an object. -/
structure Compact : Prop where
  escapes : codec.EscapesControls
  braces : codec.Braces

/-- The object of a record is read back as one that holds its fields. -/
theorem Inverse.exists_heldBy {codec : Codec} (hinverse : codec.Inverse) {r : Record}
    (h : r.Representable) :
    ∃ members, codec.read? (codec.write (.object r.fields)) = some (.object members) ∧
      r.HeldBy (.object members) :=
  ⟨_, hinverse r.fields r.nodup_fields h.plain_fields, r.heldBy_arranged⟩

end Codec

/-! ## The standard codec -/

theorem ofName?_level (level : Level) : Level.ofName? level.name = some level := by
  cases level <;> decide

theorem ofName?_outcome (outcome : Outcome) : Outcome.ofName? outcome.name = some outcome := by
  cases outcome <;> decide

/-- A field that may be missing is read back. -/
theorem optional?_encode {α : Type} (encode : α → Json) (decode : Json → Option α)
    (hnull : ∀ a, encode a ≠ .null) (hread : ∀ a, decode (encode a) = some a) (value : Option α) :
    optional? decode (value.map encode) = some value := by
  cases value with
  | none => rfl
  | some a =>
      rw [Option.map_some]
      unfold optional?
      split
      · next heq => cases heq
      · next heq => exact absurd (Option.some.inj heq) (hnull a)
      · next heq =>
          cases heq
          rw [hread, Option.map_some]

theorem optional?_details (r : Record) : optional? some r.details = some r.asRead.details := by
  obtain ⟨_, _, _, _, _, _, _, _, _, details⟩ := r
  cases details with
  | none => rfl
  | some value => cases value <;> rfl

theorem HeldBy.ofObject? {r : Record} {object : Json} (h : r.HeldBy object) :
    ofObject? object = some r.asRead := by
  have hnatural := optional?_encode naturalJson Json.natural? (fun n h => by cases h) fun n => rfl
  have htext := optional?_encode Json.string Json.text? (fun s h => by cases h) fun s => rfl
  have hname := optional?_encode (fun o : Outcome => .string o.name)
    (fun value => (nameOf? value).bind Outcome.ofName?) (fun o h => by cases h) ofName?_outcome
  unfold Record.ofObject?
  rw [h.timestamp, h.traceId, h.level, h.event, h.format, h.length, h.capacity, h.outcome,
    h.latency, h.details, hnatural, hnatural, hnatural, htext, hname, optional?_details]
  simp only [Option.bind_some, nameOf?, ofName?_level, Option.bind_eq_bind, Json.text?]
  rfl

namespace Codec

theorem braces_standard : standard.Braces := by
  intro members
  simp only [standard, Json.print, String.toList_ofList]
  cases members with
  | nil => exact ⟨[], rfl⟩
  | cons m members => exact ⟨_, rfl⟩

theorem compact_standard : standard.Compact where
  escapes v := by
    simp only [standard, Json.print, String.toList_ofList]
    exact v.printable_chars
  braces := braces_standard

theorem faithful_standard : standard.Faithful where
  encodes _ := rfl
  inverse _ _ hplain := Json.parse?_print_object hplain (by decide)
  decodes _ _ _ hheld := hheld.ofObject?

end Codec

end Record
end BoundedFormat
