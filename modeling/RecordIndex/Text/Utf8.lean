import RecordIndex.Bytes

/-!
# UTF-8 text

* `Utf8.decode` reads a byte string as text, or says where and how it fails to be UTF-8.
* `Utf8.encode` writes text as bytes.

A byte string is accepted exactly if it is well-formed UTF-8 (`decode_eq_ok_iff`). The scan for the
first defect runs only on byte strings that are not.
-/

namespace RecordIndex.Utf8

/-- Where a byte string stops being UTF-8: the text before `offset` is well formed, and from there
`wrong` bytes can begin or continue no character, or the string ends inside one (`none`). -/
structure Defect where
  offset : Nat
  wrong : Option Nat
deriving DecidableEq, Repr

/-- The wording of a defect. -/
def Defect.message : Defect → String
  | ⟨i, some n⟩ => s!"invalid utf-8 sequence of {n} bytes from index {i}"
  | ⟨i, none⟩ => s!"incomplete utf-8 byte sequence from index {i}"

/-- The bytes of a text. -/
def encode (s : String) : Bytes := s.toByteArray.data.toList

/-- The bytes from `first` to `last`. -/
structure ByteRange where
  first : UInt8
  last : UInt8

/-- The bytes that continue a character after its second byte, and mostly there too. -/
def continuation : ByteRange := ⟨0x80, 0xBF⟩

/-- The ranges of the bytes that must follow a lead byte, if any character starts with it. The
narrower ranges leave out overlong forms, surrogates and code points above U+10FFFF. -/
def followers (lead : UInt8) : Option (List ByteRange) :=
  if lead ≤ 0x7F then some []
  else if lead < 0xC2 then none
  else if lead ≤ 0xDF then some [continuation]
  else if lead = 0xE0 then some [⟨0xA0, 0xBF⟩, continuation]
  else if lead = 0xED then some [⟨0x80, 0x9F⟩, continuation]
  else if lead ≤ 0xEF then some [continuation, continuation]
  else if lead = 0xF0 then some [⟨0x90, 0xBF⟩, continuation, continuation]
  else if lead ≤ 0xF3 then some [continuation, continuation, continuation]
  else if lead = 0xF4 then some [⟨0x80, 0x8F⟩, continuation, continuation]
  else none

/-- Scans on from position `pos`, inside or after the character that starts at `start`, which is
still owed bytes of the ranges `owed`. -/
def scan (start pos : Nat) : (owed : List ByteRange) → Bytes → Defect
  | _, [] => ⟨start, none⟩
  | [], b :: bs =>
    match followers b with
    | some owed => scan pos (pos + 1) owed bs
    | none => ⟨pos, some 1⟩
  | r :: owed, b :: bs =>
    if r.first ≤ b ∧ b ≤ r.last then scan start (pos + 1) owed bs
    else ⟨start, some (pos - start)⟩

/-- The first defect of a byte string that is not UTF-8. -/
def firstDefect (bs : Bytes) : Defect := scan 0 0 [] bs

/-- Reads a byte string as text. -/
def decode (bs : Bytes) : Except Defect String :=
  match String.fromUTF8? ⟨bs.toArray⟩ with
  | some s => .ok s
  | none => .error (firstDefect bs)

@[simp] theorem length_encode (s : String) : (encode s).length = s.utf8ByteSize := rfl

theorem fromUTF8?_eq_some_iff (b : ByteArray) (s : String) :
    String.fromUTF8? b = some s ↔ s.toByteArray = b := by
  rw [String.fromUTF8?]
  split
  · rename_i h
    rw [Option.some.injEq]
    constructor
    · rintro rfl; rfl
    · intro hs; apply String.toByteArray_inj.1; rw [hs]; rfl
  · rename_i h
    simp only [reduceCtorEq, false_iff]
    rintro rfl
    exact h s.isValidUTF8

/-- A byte string reads as `s` exactly if it is the encoding of `s`. -/
theorem decode_eq_ok_iff (bs : Bytes) (s : String) : decode bs = .ok s ↔ bs = encode s := by
  have key : String.fromUTF8? ⟨bs.toArray⟩ = some s ↔ bs = encode s := by
    rw [fromUTF8?_eq_some_iff, encode]
    constructor
    · intro h; rw [h]
    · intro h
      apply ByteArray.ext
      simp [h]
  rw [decode]
  cases h : String.fromUTF8? ⟨bs.toArray⟩ with
  | none => rw [h] at key; simpa using key
  | some t => rw [h] at key; simpa using key

@[simp] theorem decode_encode (s : String) : decode (encode s) = .ok s :=
  (decode_eq_ok_iff _ _).2 rfl

end RecordIndex.Utf8
