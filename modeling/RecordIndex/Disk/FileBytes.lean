import RecordIndex.Disk.Extent

/-!
# The bytes of a file

A file is a string of bytes that is read and written at any position. Writing behind its end fills
the gap with zeros; writing nothing changes nothing.

The bytes at the start of a file lie in one piece. What is behind a gap that is too long to be
filled is kept as a row of extents, so that a file may be far longer than what has been written.

`FileBytes.contents` is the view that the lemmas speak about: each operation is described by what it
does to that list.
-/

namespace RecordIndex

/-- The bytes of a file: those at its start, and the extents behind them. -/
structure FileBytes where
  start : ByteArray
  rest : List Extent
deriving Inhabited

namespace FileBytes

/-- The bytes as a list. -/
def contents (f : FileBytes) : Bytes := f.start.data.toList ++ Extent.row f.rest

/-- A file with given bytes. -/
def ofBytes (bs : Bytes) : FileBytes := ⟨⟨bs.toArray⟩, []⟩

/-- The file without bytes. -/
def empty : FileBytes := ⟨ByteArray.empty, []⟩

/-- The number of bytes. -/
def length (f : FileBytes) : Nat := f.start.size + Extent.rowLength f.rest

/-- The `n` bytes from position `pos` on, if the file is that long. Reading no bytes succeeds
anywhere. -/
def read? (f : FileBytes) (pos n : Nat) : Option Bytes :=
  if n = 0 then some []
  else if pos + n ≤ f.length then
    some ((f.start.extract pos (pos + n)).data.toList ++
      Extent.sliceRow (pos - f.start.size) (n - (f.start.size - pos)) f.rest)
  else none

/-- The longest gap that is filled. -/
def maxFilledGap : Nat := 0x100000

/-- The file with zeros behind its end up to `n` bytes. -/
def extend (f : FileBytes) (n : Nat) : FileBytes :=
  let gap := n - f.length
  if gap = 0 then f
  else if f.rest.isEmpty ∧ gap ≤ maxFilledGap then ⟨f.start ++ ⟨Array.replicate gap 0⟩, []⟩
  else ⟨f.start, f.rest ++ [⟨gap, .empty⟩]⟩

/-- The first `n` bytes. -/
def truncate (f : FileBytes) (n : Nat) : FileBytes :=
  if n ≤ f.start.size then ⟨f.start.extract 0 n, []⟩
  else ⟨f.start, Extent.takeRow (n - f.start.size) f.rest⟩

/-- Cuts the file off at `n` bytes, or fills it up with zeros to `n` bytes. -/
def setLength (f : FileBytes) (n : Nat) : FileBytes :=
  if n ≤ f.length then f.truncate n else f.extend n

/-- Replaces the bytes from a position in the file on. -/
def replace (f : FileBytes) (pos : Nat) (bs : Bytes) : FileBytes :=
  let behind := Extent.dropRow (pos + bs.length - f.start.size) f.rest
  if pos ≤ f.start.size then ⟨ByteArray.copySlice ⟨bs.toArray⟩ 0 f.start pos bs.length, behind⟩
  else ⟨f.start, Extent.takeRow (pos - f.start.size) f.rest ++ ⟨0, ⟨bs.toArray⟩⟩ :: behind⟩

/-- Replaces the bytes from position `pos` on. -/
def write (f : FileBytes) (pos : Nat) (bs : Bytes) : FileBytes :=
  if bs.isEmpty then f else (f.extend pos).replace pos bs

@[simp] theorem contents_ofBytes (bs : Bytes) : (ofBytes bs).contents = bs := by
  simp [ofBytes, contents]

@[simp] theorem contents_empty : empty.contents = [] := rfl

theorem length_eq (f : FileBytes) : f.length = f.contents.length := by
  rw [length, contents, List.length_append, Extent.rowLength_eq]
  rfl

theorem read?_eq (f : FileBytes) (pos n : Nat) :
    f.read? pos n =
      if n = 0 then some []
      else if pos + n ≤ f.contents.length then some ((f.contents.drop pos).take n)
      else none := by
  unfold read?
  rw [length_eq, Extent.sliceRow_eq]
  split
  · rfl
  · split
    · simp [contents, List.drop_append, List.take_append, List.extract_eq_take_drop]
    · rfl

theorem contents_extend (f : FileBytes) (n : Nat) :
    (f.extend n).contents = f.contents ++ zeros (n - f.contents.length) := by
  unfold extend
  simp only [length_eq]
  split
  · rename_i h
    simp [h, zeros]
  · split
    · rename_i h
      simp [contents, zeros, List.isEmpty_iff.mp h.1]
    · simp [contents, Extent.contents]

theorem contents_truncate (f : FileBytes) (n : Nat) :
    (f.truncate n).contents = f.contents.take n := by
  unfold truncate
  split
  · rename_i h
    have none : n - f.start.size = 0 := Nat.sub_eq_zero_of_le h
    simp [contents, List.take_append, List.extract_eq_take_drop, none]
  · rename_i h
    have all : f.start.data.toList.take n = f.start.data.toList :=
      List.take_of_length_le (by simp; omega)
    simp [contents, List.take_append, Extent.row_takeRow, all]

theorem contents_setLength (f : FileBytes) (n : Nat) :
    (f.setLength n).contents = f.contents.take n ++ zeros (n - f.contents.length) := by
  unfold setLength
  rw [length_eq]
  split
  · rename_i h
    rw [contents_truncate, Nat.sub_eq_zero_of_le h]
    simp [zeros]
  · rename_i h
    rw [contents_extend, List.take_of_length_le (by omega)]

theorem contents_replace (f : FileBytes) (pos : Nat) (bs : Bytes) :
    (f.replace pos bs).contents =
      f.contents.take pos ++ bs ++ f.contents.drop (pos + bs.length) := by
  unfold replace
  split
  · rename_i h
    have none : pos - f.start.size = 0 := Nat.sub_eq_zero_of_le h
    have tail : (f.start.data.toList.drop (pos + bs.length)).take
        (f.start.size - (pos + bs.length)) = f.start.data.toList.drop (pos + bs.length) :=
      List.take_of_length_le (by simp)
    simp [contents, ByteArray.copySlice, List.take_append, List.drop_append,
      List.extract_eq_take_drop, none, tail, Extent.row_dropRow]
  · rename_i h
    have all : f.start.data.toList.take pos = f.start.data.toList :=
      List.take_of_length_le (by simp; omega)
    have none : f.start.data.toList.drop (pos + bs.length) = [] :=
      List.drop_eq_nil_of_le (by simp; omega)
    simp [contents, Extent.contents, List.take_append, List.drop_append, all, none,
      Extent.row_takeRow, Extent.row_dropRow, zeros]

/-- The bytes before `pos` stay, the gap is filled with zeros, and the bytes behind `bs` stay. -/
theorem contents_write {f : FileBytes} {pos : Nat} {bs : Bytes} (h : bs ≠ []) :
    (f.write pos bs).contents =
      (f.contents.take pos ++ zeros (pos - f.contents.length)) ++ bs ++
        f.contents.drop (pos + bs.length) := by
  have hb : bs.isEmpty = false := by cases bs <;> simp_all
  have before : (zeros (pos - f.contents.length)).take (pos - f.contents.length) =
      zeros (pos - f.contents.length) := List.take_of_length_le (by simp)
  have behind : (zeros (pos - f.contents.length)).drop (pos + bs.length - f.contents.length) = [] :=
    List.drop_eq_nil_of_le (by simp; omega)
  simp only [write, hb, Bool.false_eq_true, if_false]
  rw [contents_replace, contents_extend, List.take_append, List.drop_append, before, behind,
    List.append_nil]

end FileBytes
end RecordIndex
