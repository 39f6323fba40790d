import RecordIndex.Record

/-!
# Records on disk

A record is the signal of its key, the key, and then its named fields up to the end of the data:
for each the length of the name, the name, the signal and the field.

* `Record.encode` writes a record; a string that is too long is a fault.
* `Record.decode` reads a record from exactly the bytes given.
-/

namespace RecordIndex

namespace Fields

/-- The bytes of one named field. -/
def encodeEntry (e : String × Field) : Except Fault Bytes := do
  let field ← e.2.encode
  return BigEndian.encode 4 e.1.utf8ByteSize ++ Utf8.encode e.1 ++ e.2.type.signal :: field

/-- The bytes of all fields. -/
def encode (v : Fields) : Except Fault Bytes := do
  let parts ← v.entries.mapM encodeEntry
  return parts.flatten

/-- Reads a name. -/
def nameDecoder : Decoder String := do
  let length ← Decoder.word 4
  let name ← Decoder.bytes length
  match Utf8.decode name with
  | .ok s => pure s
  | .error defect => Decoder.fail (.nameText defect)

/-- Reads one named field. -/
def entryDecoder : Decoder (String × Field) := do
  let name ← nameDecoder
  let type ← FieldType.decoder
  let field ← Field.decoder type
  return (name, field)

/-- Reads named fields up to the end of the data, `budget` of them at most. -/
def entriesDecoder : (budget : Nat) → Decoder (List (String × Field))
  | 0 => pure []
  | budget + 1 => do
    if ← Decoder.atEnd then
      pure []
    else
      let entry ← entryDecoder
      let rest ← entriesDecoder budget
      return entry :: rest

/-- Reads named fields up to the end of the data. Each takes at least one byte, so there are no more
of them than bytes. -/
def decoder : Decoder Fields := do
  let c ← get
  let entries ← entriesDecoder c.rest.length
  return ⟨entries⟩

end Fields

namespace Record

/-- The bytes of a record. -/
def encode (r : Record) : Except Fault Bytes := do
  let key ← r.key.encode
  let value ← r.value.encode
  return r.key.type.signal :: key ++ value

/-- Reads a record from the rest of the data. -/
def decoder : Decoder Record := do
  let type ← FieldType.decoder
  let key ← Field.decoder type
  let value ← Fields.decoder
  return ⟨key, value⟩

/-- Reads a record. -/
def decode (bs : Bytes) : Except Error Record := decoder.run bs

end Record
end RecordIndex
