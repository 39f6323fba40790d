import RecordIndex.Proofs.Blocks

/-!
# Arrays of blocks

What a slot file is for its user: an array of blocks of one size, with bytes in front of them that the
user may write. `BlockArray` is this array, and `BlockArray.apply` says what each call answers and does.
Nothing in it speaks of positions, of the length of a file or of the count that a handle keeps.

* `SlotCall` is a call to an open slot file, `SlotCall.replies` what a row of calls answers and
  `SlotCall.leave` the file that it leaves.
* `BlockArray.replies` and `BlockArray.leave` are the same for the array.
* `overwrite` is what raw bytes do to the bytes in front of the blocks.
-/

namespace RecordIndex

open RecordIndex.Action

/-! ### Calls -/

/-- A call to an open slot file. -/
inductive SlotCall where
  | append (bs : Bytes)
  | write (slot : UInt64) (bs : Bytes)
  | zero (slot : UInt64)
  | read (slot : UInt64)
  | readExactly (slot : UInt64) (n : Nat)
  | clear
  | writeBytes (pos : UInt64) (bs : Bytes)

/-- What a call answers if it does not fail. -/
inductive SlotReply where
  | done
  | number (n : Nat)
  | block (bs : Bytes)
deriving DecidableEq

namespace SlotCall

/-- Makes a call. -/
def run : SlotCall → SlotAction SlotReply
  | append bs => (fun n => .number n.toNat) <$> SlotFile.append bs
  | write slot bs => (fun _ => .done) <$> SlotFile.write slot bs
  | zero slot => (fun _ => .done) <$> SlotFile.zero slot
  | read slot => .block <$> SlotFile.read slot
  | readExactly slot n => .block <$> SlotFile.readExactly slot n
  | clear => (fun _ => .done) <$> SlotFile.clear
  | writeBytes pos bs => (fun _ => .done) <$> SlotFile.writeBytes pos bs

/-- Makes one call after the other, and lists the answers. A call that fails is not the last. -/
def replies : List SlotCall → SlotFile → List (Except Failure SlotReply)
  | [], _ => []
  | c :: calls, f => answer (c.run f) :: replies calls (finalState (c.run f))

/-- The file that a row of calls leaves. -/
def leave : List SlotCall → SlotFile → SlotFile
  | [], f => f
  | c :: calls, f => leave calls (finalState (c.run f))

/-- Raw bytes are only written in front of the slots. -/
def StaysInHeader (l : SlotLayout) : SlotCall → Prop
  | writeBytes pos bs => pos.toNat + bs.length ≤ l.dataStart.toNat
  | _ => True

/-- The slot that a call writes over. -/
def target? : SlotCall → Option UInt64
  | write slot _ | zero slot => some slot
  | _ => none

/-- What a call is counted as when it succeeds. -/
inductive Kind where
  | read
  | append
  | write
  | zero
deriving DecidableEq

/-- The kind of a call. Calls that are about no slot are not counted. -/
def kind? : SlotCall → Option Kind
  | append _ => some .append
  | write _ _ => some .write
  | zero _ => some .zero
  | read _ | readExactly _ _ => some .read
  | clear | writeBytes _ _ => none

/-- How many calls of a kind succeed when a row of calls is made. -/
def succeeded (k : Kind) (calls : List SlotCall) (f : SlotFile) : Nat :=
  (calls.zip (replies calls f)).countP fun x => x.1.kind? = some k ∧ x.2.isOk = true

end SlotCall

/-! ### Arrays -/

/-- Some bytes, and blocks behind them. -/
structure BlockArray where
  head : Bytes
  blocks : List Bytes
deriving DecidableEq

/-- The byte string with others written over it from a position on. A gap is filled with zeros. -/
def overwrite (bs : Bytes) (pos : Nat) (new : Bytes) : Bytes :=
  if new = [] then bs
  else bs.take pos ++ zeros (pos - bs.length) ++ new ++ bs.drop (pos + new.length)

namespace BlockArray

/-- No blocks, and no bytes in front of them. -/
def empty : BlockArray := ⟨[], []⟩

/-- All bytes, one after the other. -/
def contents (a : BlockArray) : Bytes := a.head ++ a.blocks.flatten

/-- What a call answers, and the array that it leaves. The first block that is appended finds the bytes
in front of it filled up with zeros. -/
def apply (l : SlotLayout) (a : BlockArray) : SlotCall → Except Error SlotReply × BlockArray
  | .append bs =>
    if bs.length = l.slotSize.toNat then
      (.ok (.number a.blocks.length), ⟨padTo l.dataStart.toNat a.head, a.blocks ++ [bs]⟩)
    else (.error (.slotSizeMismatch l.slotSize.toNat bs.length), a)
  | .write slot bs =>
    if slot.toNat < a.blocks.length then
      if bs.length = l.slotSize.toNat then
        (.ok .done, { a with blocks := a.blocks.set slot.toNat bs })
      else (.error (.slotSizeMismatch l.slotSize.toNat bs.length), a)
    else (.error (.slotOutOfBounds slot), a)
  | .zero slot =>
    if slot.toNat < a.blocks.length then
      (.ok .done, { a with blocks := a.blocks.set slot.toNat (zeros l.slotSize.toNat) })
    else (.error (.slotOutOfBounds slot), a)
  | .read slot =>
    match a.blocks[slot.toNat]? with
    | some b => (.ok (.block b), a)
    | none => (.error (.slotOutOfBounds slot), a)
  | .readExactly slot n =>
    match a.blocks[slot.toNat]? with
    | some b =>
      if n = l.slotSize.toNat then (.ok (.block b), a)
      else (.error (.slotSizeMismatch l.slotSize.toNat n), a)
    | none => (.error (.slotOutOfBounds slot), a)
  | .clear => (.ok .done, empty)
  | .writeBytes pos bs => (.ok .done, { a with head := overwrite a.head pos.toNat bs })

/-- What a row of calls answers. -/
def replies (l : SlotLayout) : List SlotCall → BlockArray → List (Except Error SlotReply)
  | [], _ => []
  | c :: calls, a => (a.apply l c).1 :: replies l calls (a.apply l c).2

/-- The array that a row of calls leaves. -/
def leave (l : SlotLayout) : List SlotCall → BlockArray → BlockArray
  | [], a => a
  | c :: calls, a => leave l calls (a.apply l c).2

end BlockArray

theorem FileBytes.contents_write_overwrite (f : FileBytes) (pos : Nat) (bs : Bytes) :
    (f.write pos bs).contents = overwrite f.contents pos bs := by
  unfold overwrite
  split_ifs with h
  · rw [h]
    rfl
  · exact contents_write h

/-- In a byte string that is followed by others. -/
theorem overwrite_append {head rest bs : Bytes} {pos : Nat} (h : pos + bs.length ≤ head.length) :
    overwrite (head ++ rest) pos bs = overwrite head pos bs ++ rest := by
  unfold overwrite
  split_ifs
  · rfl
  · have hgap : pos - (head ++ rest).length = 0 := by
      rw [List.length_append]
      omega
    rw [hgap, Nat.sub_eq_zero_of_le (by omega : pos ≤ head.length),
      List.take_append_of_le_length (by omega), List.drop_append_of_le_length h]
    simp

theorem length_overwrite {bs new : Bytes} {pos : Nat} (h : pos + new.length ≤ bs.length) :
    (overwrite bs pos new).length = bs.length := by
  unfold overwrite
  split_ifs
  · rfl
  · simp only [List.length_append, List.length_take, List.length_drop, length_zeros]
    omega

theorem length_overwrite_le {bs new : Bytes} {pos n : Nat} (hbs : bs.length ≤ n)
    (hnew : pos + new.length ≤ n) : (overwrite bs pos new).length ≤ n := by
  unfold overwrite
  split_ifs
  · exact hbs
  · simp only [List.length_append, List.length_take, List.length_drop, length_zeros]
    omega

end RecordIndex
