import RecordIndex.Bytes
import RecordIndex.Error

/-!
# Decoders

A decoder reads a value from the front of a byte string and leaves the rest. It moves along a
`Cursor`, which knows how far from the start of the data it is, so that data which ends too early is
reported with its position.

The lemmas say what each reader does on data that starts with the bytes it looks for.
-/

namespace RecordIndex

/-- The data not yet read, and how many bytes came before it. -/
structure Cursor where
  offset : Nat
  rest : Bytes
deriving DecidableEq, Repr

/-- Reads a value from a cursor and answers where the rest of the data starts. -/
abbrev Decoder := StateT Cursor (Except Error)

namespace Cursor

/-- The start of a byte string. -/
def start (bs : Bytes) : Cursor := ⟨0, bs⟩

/-- The cursor `n` bytes on. -/
def advance (c : Cursor) (n : Nat) : Cursor := ⟨c.offset + n, c.rest.drop n⟩

end Cursor

namespace Decoder

/-- Fails with a corruption. -/
def fail {α : Type} (cause : Corruption) : Decoder α := fun _ => .error (.corrupted cause)

/-- The next `n` bytes. -/
def bytes (n : Nat) : Decoder Bytes := fun c =>
  let front := c.rest.take n
  if front.length < n then
    .error (.corrupted (.endOfData n c.offset c.rest.length))
  else
    .ok (front, c.advance n)

/-- The next `w` bytes as a big-endian word. -/
def word (w : Nat) : Decoder Nat := BigEndian.decode <$> bytes w

/-- The next byte. -/
def byte : Decoder UInt8 := fun c =>
  match c.rest with
  | [] => .error (.corrupted (.endOfData 1 c.offset 0))
  | b :: rest => .ok (b, ⟨c.offset + 1, rest⟩)

/-- Whether no data is left. -/
def atEnd : Decoder Bool := fun c => .ok (c.rest.isEmpty, c)

/-- Reads from the start of a byte string and ignores what is left over. -/
def run {α : Type} (d : Decoder α) (bs : Bytes) : Except Error α :=
  (StateT.run d (.start bs)).map Prod.fst

theorem bytes_append (o : Nat) (bs rest : Bytes) :
    bytes bs.length ⟨o, bs ++ rest⟩ = .ok (bs, ⟨o + bs.length, rest⟩) := by
  simp [bytes, Cursor.advance]

theorem bytes_of_short {n : Nat} {c : Cursor} (h : c.rest.length < n) :
    bytes n c = .error (.corrupted (.endOfData n c.offset c.rest.length)) := by
  simp [bytes, List.length_take, Nat.min_def, Nat.not_le.2 h, h]

theorem bytes_of_le {n : Nat} {c : Cursor} (h : n ≤ c.rest.length) :
    bytes n c = .ok (c.rest.take n, c.advance n) := by
  simp [bytes, List.length_take, Nat.min_eq_left h]

theorem word_encode {w n : Nat} (hn : n < BigEndian.limit w) (o : Nat) (rest : Bytes) :
    word w ⟨o, BigEndian.encode w n ++ rest⟩ = .ok (n, ⟨o + w, rest⟩) := by
  have h := bytes_append o (BigEndian.encode w n) rest
  rw [BigEndian.length_encode] at h
  show (bytes w ⟨o, BigEndian.encode w n ++ rest⟩ >>= fun p => _) = _
  rw [h]
  show Except.ok (BigEndian.decode (BigEndian.encode w n), _) = _
  rw [BigEndian.decode_encode hn]

end Decoder
end RecordIndex
