import RecordIndex.Decoder

/-!
# Fields on disk

An integer is a big-endian word in two's complement. A string is a four-byte length, that many bytes
of UTF-8, and zero bytes up to the fixed size of its slot. The type is not part of the field: its
signal stands in front of it or, for the keys of a node, once in the node header.

* `Field.validate` accepts exactly the fields that have an encoded form.
* `Field.encode` writes a field; asking it for an overlong string is a fault.
* `Field.decoder` reads a field of a known type.
-/

namespace RecordIndex

namespace FieldType

/-- Reads the signal of a type. -/
def decoder : Decoder FieldType := do
  let b ← Decoder.byte
  match ofSignal? b with
  | some t => pure t
  | none => Decoder.fail (.fieldType b)

/-- The type that a byte stands for, or why it stands for none. -/
def ofSignal (b : UInt8) : Except Error FieldType :=
  match ofSignal? b with
  | some t => .ok t
  | none => .error (.corrupted (.fieldType b))

end FieldType

namespace Field

/-- Refuses a string that is too long for its slot. -/
def validate : Field → Except Error Unit
  | str s =>
    if s.utf8ByteSize ≤ maxStringBytes then .ok ()
    else .error (.encoding (.longString s.utf8ByteSize))
  | _ => .ok ()

/-- A string field, if the string is short enough. -/
def ofString (s : String) : Except Error Field := do
  validate (str s)
  return str s

/-- The bytes of a string in its slot. -/
def stringSlot (s : String) : Bytes :=
  BigEndian.encode 4 s.utf8ByteSize ++ padTo (stringFieldBytes - 4) (Utf8.encode s)

/-- The bytes of a field. -/
def encode : Field → Except Fault Bytes
  | int32 v => .ok (BigEndian.encode 4 v.toUInt32.toNat)
  | str s =>
    if s.utf8ByteSize ≤ maxStringBytes then .ok (stringSlot s) else .error .overlongString
  | int64 v => .ok (BigEndian.encode 8 v.toUInt64.toNat)

/-- Reads a string from its slot. -/
def stringDecoder : Decoder String := do
  let length ← Decoder.word 4
  if maxStringBytes < length then
    Decoder.fail (.stringLength length)
  else
    let slot ← Decoder.bytes (stringFieldBytes - 4)
    match Utf8.decode (slot.take length) with
    | .ok s => pure s
    | .error defect => Decoder.fail (.fieldText defect)

/-- Reads a field of a known type. -/
def decoder : FieldType → Decoder Field
  | .int32 => (fun n => int32 (UInt32.ofNat n).toInt32) <$> Decoder.word 4
  | .str => str <$> stringDecoder
  | .int64 => (fun n => int64 (UInt64.ofNat n).toInt64) <$> Decoder.word 8

/-- Reads the field that a byte string starts with. -/
def decode (t : FieldType) (bs : Bytes) : Except Error Field := (decoder t).run bs

theorem validate_eq_ok_iff (f : Field) : f.validate = .ok () ↔ f.Fits := by
  cases f with
  | int32 v => simp [validate, Fits]
  | str s => simp only [validate, Fits]; split <;> simp_all
  | int64 v => simp [validate, Fits]

/-- A field has an encoded form exactly if it fits its slot. -/
theorem encode_isOk_iff (f : Field) : (∃ bs, f.encode = .ok bs) ↔ f.Fits := by
  cases f with
  | int32 v => simp [encode, Fits]
  | str s => simp only [encode, Fits]; split <;> simp_all
  | int64 v => simp [encode, Fits]

/-- The encoded form has the size of the field. -/
theorem length_encode {f : Field} {bs : Bytes} (h : f.encode = .ok bs) : bs.length = f.size := by
  cases f with
  | int32 v => simp only [encode, Except.ok.injEq] at h; subst h; simp [size, type, FieldType.size]
  | int64 v => simp only [encode, Except.ok.injEq] at h; subst h; simp [size, type, FieldType.size]
  | str s =>
    simp only [encode] at h
    split at h
    · rename_i hs
      simp only [Except.ok.injEq] at h
      subst h
      have hs' : (Utf8.encode s).length ≤ stringFieldBytes - 4 := by
        rw [Utf8.length_encode]; exact Nat.le_trans hs (by decide)
      rw [stringSlot, List.length_append, BigEndian.length_encode, length_padTo hs']
      rfl
    · cases h

end Field
end RecordIndex
