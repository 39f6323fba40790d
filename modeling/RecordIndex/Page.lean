import RecordIndex.Bytes
import RecordIndex.Error

/-!
# Pages

A page is a byte string of one fixed length. Structures are written to the front of a page, and the
bytes behind them are zero; a page of zeros only has never been written or has been given up.
-/

namespace RecordIndex

/-- The bytes of a page. -/
structure Page where
  bytes : Bytes
  length_eq : bytes.length = pageSize
deriving DecidableEq

namespace Page

/-- The page of zeros. -/
def zero : Page := ⟨zeros pageSize, length_zeros pageSize⟩

instance : Inhabited Page := ⟨zero⟩

/-- Whether every byte is zero. -/
def isZero (p : Page) : Bool := p.bytes.all (· == 0)

/-- A byte string as a page, if it has the length of one. -/
def ofBytes (bs : Bytes) : Except Error Page :=
  if h : bs.length = pageSize then .ok ⟨bs, h⟩
  else .error (.slotSizeMismatch pageSize bs.length)

theorem length_take_padTo (bs : Bytes) : ((padTo pageSize bs).take pageSize).length = pageSize := by
  simp [padTo]; omega

/-- The page that starts with `bs` and goes on with zeros; what does not fit is cut off. -/
def filled (bs : Bytes) : Page := ⟨(padTo pageSize bs).take pageSize, length_take_padTo bs⟩

/-- Replaces the bytes from position `i` on by `bs`; what does not fit is cut off. -/
def overwrite (p : Page) (i : Nat) (bs : Bytes) : Page :=
  filled (p.bytes.take i ++ bs ++ p.bytes.drop (i + bs.length))

@[simp] theorem ofBytes_bytes (p : Page) : ofBytes p.bytes = .ok p := by
  simp [ofBytes, p.length_eq]

theorem bytes_filled {bs : Bytes} (h : bs.length ≤ pageSize) :
    (filled bs).bytes = padTo pageSize bs := by
  show (padTo pageSize bs).take pageSize = _
  rw [List.take_of_length_le (Nat.le_of_eq (length_padTo h))]

end Page
end RecordIndex
