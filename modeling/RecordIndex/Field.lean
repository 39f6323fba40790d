import RecordIndex.Limits
import RecordIndex.Text.Quoted

/-!
# Fields

A field is a 32-bit integer, a 64-bit integer or a string; keys are fields too. Each type has a
signal, the byte that stands for it on disk, and a fixed encoded size.

Fields of one type are ordered by value, strings by code point; fields of different types are
ordered by the signals of their types.
-/

namespace RecordIndex

/-- The type of a field. -/
inductive FieldType where
  | int32
  | str
  | int64
deriving DecidableEq, Repr, Inhabited

/-- A typed value. -/
inductive Field where
  | int32 (value : Int32)
  | str (value : String)
  | int64 (value : Int64)
deriving DecidableEq, Repr, Inhabited

namespace FieldType

/-- The byte that stands for the type on disk. -/
def signal : FieldType → UInt8
  | int32 => 1
  | str => 2
  | int64 => 3

/-- The type that a byte stands for. -/
def ofSignal? (b : UInt8) : Option FieldType :=
  if b = 1 then some int32 else if b = 2 then some str else if b = 3 then some int64 else none

/-- Encoded bytes of any field of the type. -/
def size : FieldType → Nat
  | int32 => 4
  | str => stringFieldBytes
  | int64 => 8

/-- The name of the type in messages. -/
def name : FieldType → String
  | int32 => "Int32"
  | str => "Str"
  | int64 => "Int64"

instance : ToString FieldType := ⟨name⟩

@[simp] theorem ofSignal?_signal (t : FieldType) : ofSignal? t.signal = some t := by
  cases t <;> rfl

theorem ofSignal?_eq_some_iff {b : UInt8} {t : FieldType} :
    ofSignal? b = some t ↔ b = t.signal := by
  constructor
  · intro h
    simp only [ofSignal?] at h
    split at h
    · cases h; assumption
    · split at h
      · cases h; assumption
      · split at h
        · cases h; assumption
        · cases h
  · rintro rfl; simp

end FieldType

namespace Field

/-- The type of a field. -/
def type : Field → FieldType
  | int32 _ => .int32
  | str _ => .str
  | int64 _ => .int64

/-- Encoded bytes of the field. -/
def size (f : Field) : Nat := f.type.size

/-- Integers in decimal, strings in double quotes. -/
def text : Field → String
  | int32 v => toString v.toInt
  | str s => Text.quote s
  | int64 v => toString v.toInt

instance : ToString Field := ⟨text⟩

/-- Orders fields of one type by value and others by the signals of their types. -/
def cmp : Field → Field → Ordering
  | int32 a, int32 b => compare a b
  | str a, str b => compare a b
  | int64 a, int64 b => compare a b
  | a, b => compare a.type.signal b.type.signal

instance : Ord Field := ⟨cmp⟩
instance : LE Field := leOfOrd
instance : LT Field := ltOfOrd

/-- Whether the field fits its slot: a string of more than 45 bytes does not. -/
def Fits : Field → Prop
  | str s => s.utf8ByteSize ≤ maxStringBytes
  | _ => True

instance : DecidablePred Fits
  | int32 _ => isTrue trivial
  | str s => inferInstanceAs (Decidable (s.utf8ByteSize ≤ maxStringBytes))
  | int64 _ => isTrue trivial

end Field
end RecordIndex
