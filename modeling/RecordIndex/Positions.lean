import RecordIndex.Error

/-!
# Lists by position

Nodes are edited by position. A position outside the list is a fault, so that an edit which answers
has taken place: `insertAt` makes the list longer by one, `removeAt` shorter by one, and `splitAt`
loses nothing. The `_append` lemmas say what an edit does where the first of two lists ends.
-/

namespace RecordIndex.Positions

variable {α : Type}

/-- The element at position `i`. -/
def get (xs : List α) (i : Nat) : Except Fault α :=
  match xs[i]? with
  | some a => .ok a
  | none => .error .outOfRange

/-- Puts `a` in front of position `i`. -/
def insertAt (xs : List α) (i : Nat) (a : α) : Except Fault (List α) :=
  if i ≤ xs.length then .ok (xs.take i ++ a :: xs.drop i) else .error .outOfRange

/-- Takes the element at position `i` out. -/
def removeAt (xs : List α) (i : Nat) : Except Fault (α × List α) :=
  match xs[i]? with
  | some a => .ok (a, xs.take i ++ xs.drop (i + 1))
  | none => .error .outOfRange

/-- Puts `a` in place of the element at position `i`. -/
def replaceAt (xs : List α) (i : Nat) (a : α) : Except Fault (List α) :=
  if i < xs.length then .ok (xs.take i ++ a :: xs.drop (i + 1)) else .error .outOfRange

/-- The elements before position `i` and those from there on. -/
def splitAt (xs : List α) (i : Nat) : Except Fault (List α × List α) :=
  if i ≤ xs.length then .ok (xs.take i, xs.drop i) else .error .outOfRange

theorem get_eq_ok_iff {xs : List α} {i : Nat} {a : α} : get xs i = .ok a ↔ xs[i]? = some a := by
  unfold get
  split <;> simp_all

theorem length_of_insertAt {xs ys : List α} {i : Nat} {a : α} (h : insertAt xs i a = .ok ys) :
    ys.length = xs.length + 1 := by
  unfold insertAt at h
  split at h
  · cases h; simp; omega
  · cases h

theorem length_of_removeAt {xs ys : List α} {i : Nat} {a : α} (h : removeAt xs i = .ok (a, ys)) :
    ys.length + 1 = xs.length := by
  unfold removeAt at h
  split at h
  · have hi := (List.getElem?_eq_some_iff.1 ‹_›).1
    cases h; simp; omega
  · cases h

theorem getElem?_of_removeAt {xs ys : List α} {i : Nat} {a : α}
    (h : removeAt xs i = .ok (a, ys)) : xs[i]? = some a := by
  unfold removeAt at h
  split at h
  · cases h; assumption
  · cases h

theorem mem_of_removeAt {xs ys : List α} {i : Nat} {a : α} (h : removeAt xs i = .ok (a, ys)) :
    a ∈ xs :=
  List.mem_of_getElem? (getElem?_of_removeAt h)

theorem length_of_splitAt {xs ys zs : List α} {i : Nat} (h : splitAt xs i = .ok (ys, zs)) :
    ys.length = i := by
  unfold splitAt at h
  split at h
  · cases h; exact List.length_take_of_le ‹_›
  · cases h

theorem append_of_splitAt {xs ys zs : List α} {i : Nat} (h : splitAt xs i = .ok (ys, zs)) :
    ys ++ zs = xs := by
  unfold splitAt at h
  split at h
  · cases h; exact List.take_append_drop i xs
  · cases h

/-! ### Edits at the end of the first of two lists -/

section

variable {xs ys : List α} {a b : α} {i : Nat}

theorem get_append (hi : i = xs.length) : get (xs ++ a :: ys) i = .ok a := by
  rw [hi, get_eq_ok_iff]
  simp

theorem insertAt_append (hi : i = xs.length) : insertAt (xs ++ ys) i a = .ok (xs ++ a :: ys) := by
  rw [hi, insertAt, if_pos (by simp), List.take_left, List.drop_left]

theorem removeAt_append (hi : i = xs.length) : removeAt (xs ++ a :: ys) i = .ok (a, xs ++ ys) := by
  have hget : (xs ++ a :: ys)[xs.length]? = some a := by simp
  rw [hi, removeAt, hget]
  simp

theorem replaceAt_append (hi : i = xs.length) :
    replaceAt (xs ++ b :: ys) i a = .ok (xs ++ a :: ys) := by
  rw [hi, replaceAt, if_pos (by simp)]
  simp

theorem splitAt_append (hi : i = xs.length) : splitAt (xs ++ ys) i = .ok (xs, ys) := by
  rw [hi, splitAt, if_pos (by simp), List.take_left, List.drop_left]

end

end RecordIndex.Positions
