import RecordIndex.Bytes

/-!
# Extents

An extent is a hole, which reads as zeros, with bytes behind it. A row of extents stands for the
bytes of all of them, one after the other, however long their holes are.

* `Extent.contents` is the view of an extent as a list, and `Extent.row` that of a row.
* `take`, `drop` and `slice` cut an extent, and `takeRow`, `dropRow` and `sliceRow` a row. The
  lemmas say that each does to the view what the operation on lists does.
-/

namespace RecordIndex

/-- A hole and the bytes behind it. -/
structure Extent where
  hole : Nat
  bytes : ByteArray
deriving Inhabited

namespace Extent

/-- The bytes as a list, those of the hole among them. -/
def contents (e : Extent) : Bytes := zeros e.hole ++ e.bytes.data.toList

/-- The number of bytes. -/
def length (e : Extent) : Nat := e.hole + e.bytes.size

/-- The first `n` bytes. -/
def take (e : Extent) (n : Nat) : Extent :=
  if n ≤ e.hole then ⟨n, .empty⟩ else ⟨e.hole, e.bytes.extract 0 (n - e.hole)⟩

/-- The bytes from position `n` on. -/
def drop (e : Extent) (n : Nat) : Extent :=
  if n ≤ e.hole then ⟨e.hole - n, e.bytes⟩ else ⟨0, e.bytes.extract (n - e.hole) e.bytes.size⟩

/-- At most `n` bytes from position `pos` on. -/
def slice (e : Extent) (pos n : Nat) : Bytes :=
  zeros (min n (e.hole - pos)) ++
    (e.bytes.extract (pos - e.hole) (pos + n - e.hole)).data.toList

theorem length_eq (e : Extent) : e.length = e.contents.length := by
  simp [length, contents]

theorem contents_take (e : Extent) (n : Nat) : (e.take n).contents = e.contents.take n := by
  unfold take
  split
  · rename_i h
    simp [contents, zeros, List.take_append, Nat.min_eq_left h, Nat.sub_eq_zero_of_le h]
  · rename_i h
    have hole : min n e.hole = e.hole := by omega
    simp [contents, zeros, List.take_append, List.extract_eq_take_drop, hole]

theorem contents_drop (e : Extent) (n : Nat) : (e.drop n).contents = e.contents.drop n := by
  unfold drop
  split
  · rename_i h
    simp [contents, zeros, List.drop_append, Nat.sub_eq_zero_of_le h]
  · rename_i h
    have hole : e.hole - n = 0 := by omega
    have rest : (e.bytes.data.toList.drop (n - e.hole)).take (e.bytes.size - (n - e.hole)) =
        e.bytes.data.toList.drop (n - e.hole) := List.take_of_length_le (by simp)
    simp [contents, zeros, List.drop_append, hole, rest]

theorem slice_eq (e : Extent) (pos n : Nat) :
    e.slice pos n = (e.contents.drop pos).take n := by
  have count : pos + n - e.hole - (pos - e.hole) = n - (e.hole - pos) := by omega
  simp [slice, contents, zeros, List.drop_append, List.take_append, List.extract_eq_take_drop,
    count]

/-- The bytes of a row of extents. -/
def row (es : List Extent) : Bytes := es.flatMap contents

/-- The number of bytes in a row of extents. -/
def rowLength (es : List Extent) : Nat := es.foldr (fun e n => e.length + n) 0

/-- The first `n` bytes of a row. -/
def takeRow : (n : Nat) → List Extent → List Extent
  | _, [] => []
  | n, e :: es => if e.length ≤ n then e :: takeRow (n - e.length) es else [e.take n]

/-- The bytes of a row from position `n` on. -/
def dropRow : (n : Nat) → List Extent → List Extent
  | _, [] => []
  | n, e :: es => if e.length ≤ n then dropRow (n - e.length) es else e.drop n :: es

/-- At most `n` bytes of a row from position `pos` on. -/
def sliceRow : (pos n : Nat) → List Extent → Bytes
  | _, _, [] => []
  | pos, n, e :: es => e.slice pos n ++ sliceRow (pos - e.length) (n - (e.length - pos)) es

@[simp] theorem row_nil : row [] = [] := rfl

@[simp] theorem row_cons (e : Extent) (es : List Extent) : row (e :: es) = e.contents ++ row es :=
  List.flatMap_cons

@[simp] theorem row_append (es fs : List Extent) : row (es ++ fs) = row es ++ row fs :=
  List.flatMap_append

theorem rowLength_eq (es : List Extent) : rowLength es = (row es).length := by
  induction es with
  | nil => rfl
  | cons e es ih =>
    rw [row_cons, List.length_append, ← ih, ← length_eq]
    rfl

theorem row_takeRow (n : Nat) (es : List Extent) : row (takeRow n es) = (row es).take n := by
  induction es generalizing n with
  | nil => simp [takeRow]
  | cons e es ih =>
    rw [takeRow, row_cons, List.take_append, ← length_eq]
    split
    · rename_i h
      have whole : e.contents.take n = e.contents := List.take_of_length_le (length_eq e ▸ h)
      rw [row_cons, ih, whole]
    · rename_i h
      rw [row_cons, contents_take, Nat.sub_eq_zero_of_le (by omega), List.take_zero, row_nil]

theorem row_dropRow (n : Nat) (es : List Extent) : row (dropRow n es) = (row es).drop n := by
  induction es generalizing n with
  | nil => simp [dropRow]
  | cons e es ih =>
    rw [dropRow, row_cons, List.drop_append, ← length_eq]
    split
    · rename_i h
      have nothing : e.contents.drop n = [] := List.drop_eq_nil_of_le (length_eq e ▸ h)
      rw [ih, nothing, List.nil_append]
    · rename_i h
      rw [row_cons, contents_drop, Nat.sub_eq_zero_of_le (by omega), List.drop_zero]

theorem sliceRow_eq (pos n : Nat) (es : List Extent) :
    sliceRow pos n es = ((row es).drop pos).take n := by
  induction es generalizing pos n with
  | nil => simp [sliceRow]
  | cons e es ih =>
    rw [sliceRow, ih, slice_eq, row_cons, List.drop_append, List.take_append, List.length_drop,
      ← length_eq]

end Extent
end RecordIndex
