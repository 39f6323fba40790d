import Mathlib.Algebra.GroupWithZero.Nat
import Mathlib.Logic.Function.Basic
import Mathlib.Tactic.SplitIfs
import RecordIndex.SlotFile

/-!
# Slot files as rows of blocks

`SlotFile.block?` is the block that a slot file shows in a slot. A file is `InStep` with a layout if
its handle knows this layout and as many slots as the file has bytes for; the bytes are then a
header and the blocks of the slots, one after the other (`SlotFile.Holds`).

The operations are described by what they do to the blocks:

* `SlotFile.read_eq_ok_iff`: reading answers the block of the slot and counts one read.
* `SlotFile.InStep.write` and `SlotFile.InStep.zero`: writing changes the block of one slot.
* `SlotFile.InStep.append`: appending adds the block of one more slot, unless the file is as long as
  a file can be.
-/

namespace RecordIndex

/-! ### Bytes that are written -/

namespace FileBytes

variable {f : FileBytes} {pos i : Nat} {bs : Bytes}

/-- The bytes that are written. -/
theorem getElem?_write (h : bs ≠ []) (hi : i < bs.length) :
    (f.write pos bs).contents[pos + i]? = bs[i]? := by
  have hfront : (f.contents.take pos ++ zeros (pos - f.contents.length)).length = pos := by
    rw [List.length_append, List.length_take, length_zeros]
    omega
  rw [contents_write h, List.append_assoc, List.getElem?_append_right (by omega), hfront,
    Nat.add_sub_cancel_left, List.getElem?_append_left hi]

/-- The bytes in front of those that are written. -/
theorem getElem?_write_of_lt (h : bs ≠ []) (hi : i < pos) (hlen : i < f.contents.length) :
    (f.write pos bs).contents[i]? = f.contents[i]? := by
  have htake : i < (f.contents.take pos).length := by
    rw [List.length_take]
    omega
  rw [contents_write h, List.append_assoc, List.append_assoc, List.getElem?_append_left htake,
    List.getElem?_take_of_lt hi]

/-- The bytes behind those that are written. -/
theorem getElem?_write_of_le (h : bs ≠ []) (hi : pos + bs.length ≤ i) :
    (f.write pos bs).contents[i]? = f.contents[i]? := by
  have hfront :
      (f.contents.take pos ++ zeros (pos - f.contents.length) ++ bs).length = pos + bs.length := by
    simp only [List.length_append, List.length_take, length_zeros]
    omega
  rw [contents_write h, List.getElem?_append_right (by omega), hfront, List.getElem?_drop,
    Nat.add_sub_cancel' hi]

theorem le_length_write (h : bs ≠ []) : pos + bs.length ≤ (f.write pos bs).contents.length := by
  rw [contents_write h]
  simp only [List.length_append, List.length_take, length_zeros, List.length_drop]
  omega

end FileBytes

/-! ### Rows of blocks of one length -/

section Rows

variable {size : Nat} {blocks : List Bytes}

theorem length_flatten_blocks (h : ∀ b ∈ blocks, b.length = size) :
    blocks.flatten.length = blocks.length * size := by
  induction blocks with
  | nil => simp
  | cons b blocks ih =>
    rw [List.flatten_cons, List.length_append, h b (by simp),
      ih fun c hc => h c (List.mem_cons_of_mem _ hc), List.length_cons, Nat.add_mul]
    omega

theorem drop_flatten_blocks (h : ∀ b ∈ blocks, b.length = size) (i : Nat) :
    blocks.flatten.drop (i * size) = (blocks.drop i).flatten := by
  induction i generalizing blocks with
  | zero => simp
  | succ i ih =>
    cases blocks with
    | nil => simp
    | cons b blocks =>
      have hb : b.length = size := h b (by simp)
      rw [List.flatten_cons, List.drop_succ_cons, ← ih fun c hc => h c (List.mem_cons_of_mem _ hc),
        List.drop_append, List.drop_eq_nil_of_le (by rw [hb, Nat.add_mul]; omega), List.nil_append,
        hb, Nat.add_mul, Nat.one_mul, Nat.add_sub_cancel]

theorem take_flatten_blocks (h : ∀ b ∈ blocks, b.length = size) (i : Nat) :
    blocks.flatten.take (i * size) = (blocks.take i).flatten := by
  induction i generalizing blocks with
  | zero => simp
  | succ i ih =>
    cases blocks with
    | nil => simp
    | cons b blocks =>
      have hb : b.length = size := h b (by simp)
      rw [List.flatten_cons, List.take_succ_cons, List.flatten_cons,
        ← ih fun c hc => h c (List.mem_cons_of_mem _ hc), List.take_append,
        List.take_of_length_le (by rw [hb, Nat.add_mul]; omega), hb, Nat.add_mul, Nat.one_mul,
        Nat.add_sub_cancel]

/-- The bytes of one block in a row of blocks. -/
theorem slice_flatten_blocks (h : ∀ b ∈ blocks, b.length = size) {i : Nat}
    (hi : i < blocks.length) : (blocks.flatten.drop (i * size)).take size = blocks[i] := by
  rw [drop_flatten_blocks h, List.drop_eq_getElem_cons hi, List.flatten_cons,
    List.take_left' (h _ (List.getElem_mem hi))]

/-- Writing over the bytes of one block changes that block. -/
theorem replace_flatten_blocks (h : ∀ b ∈ blocks, b.length = size) {i : Nat}
    (hi : i < blocks.length) (b : Bytes) :
    blocks.flatten.take (i * size) ++ b ++ blocks.flatten.drop (i * size + size) =
      (blocks.set i b).flatten := by
  have hsucc : i * size + size = (i + 1) * size := by rw [Nat.add_mul, Nat.one_mul]
  rw [hsucc, take_flatten_blocks h, drop_flatten_blocks h, List.set_eq_take_append_cons_drop,
    if_pos hi, List.flatten_append, List.flatten_cons, List.append_assoc]

/-- A byte string of the right length is a row of blocks. -/
theorem exists_blocks {bs : Bytes} {n : Nat} (h : bs.length = n * size) :
    ∃ blocks : List Bytes, blocks.length = n ∧ (∀ b ∈ blocks, b.length = size) ∧
      bs = blocks.flatten := by
  induction n generalizing bs with
  | zero =>
    rw [Nat.zero_mul, List.length_eq_zero_iff] at h
    exact ⟨[], rfl, by simp, by simpa using h⟩
  | succ n ih =>
    rw [Nat.add_mul, Nat.one_mul] at h
    have hdrop : (bs.drop size).length = n * size := by
      rw [List.length_drop]
      omega
    obtain ⟨blocks, hlen, hsize, heq⟩ := ih hdrop
    refine ⟨bs.take size :: blocks, by simp [hlen], ?_, ?_⟩
    · intro b hb
      rcases List.mem_cons.1 hb with rfl | hb
      · rw [List.length_take]
        omega
      · exact hsize b hb
    · rw [List.flatten_cons, ← heq, List.take_append_drop]

/-! ### Files with a header and a row of blocks -/

namespace FileBytes

variable {f : FileBytes} {head b : Bytes} {pos i : Nat}

/-- Writing at or behind the end. -/
theorem contents_write_end (hb : b ≠ []) (hpos : f.contents.length ≤ pos) :
    (f.write pos b).contents = f.contents ++ zeros (pos - f.contents.length) ++ b := by
  rw [contents_write hb, List.take_of_length_le hpos, List.drop_eq_nil_of_le (by omega),
    List.append_nil]

variable (hf : f.contents = head ++ blocks.flatten) (h : ∀ b ∈ blocks, b.length = size)
  (hsize : 0 < size) (hi : i < blocks.length)
include hf h hsize hi

/-- The block in a slot. -/
theorem read?_block : f.read? (head.length + i * size) size = some blocks[i] := by
  have hmul : (i + 1) * size ≤ blocks.length * size := Nat.mul_le_mul_right _ hi
  rw [Nat.add_mul, Nat.one_mul] at hmul
  have hlength : f.contents.length = head.length + blocks.length * size := by
    rw [hf, List.length_append, length_flatten_blocks h]
  rw [read?_eq, if_neg (Nat.ne_of_gt hsize), if_pos (by omega), hf, List.drop_append,
    List.drop_eq_nil_of_le (Nat.le_add_right _ _), List.nil_append, Nat.add_sub_cancel_left,
    slice_flatten_blocks h hi]

/-- Writing a block over another one. -/
theorem contents_write_block (hb : b.length = size) :
    (f.write (head.length + i * size) b).contents = head ++ (blocks.set i b).flatten := by
  have hmul : (i + 1) * size ≤ blocks.length * size := Nat.mul_le_mul_right _ hi
  rw [Nat.add_mul, Nat.one_mul] at hmul
  have hne : b ≠ [] := List.ne_nil_of_length_pos (hb ▸ hsize)
  have hgap : head.length + i * size - f.contents.length = 0 := by
    rw [hf, List.length_append, length_flatten_blocks h]
    omega
  rw [contents_write hne, hgap, hf, hb, List.take_length_add_append, Nat.add_assoc,
    List.drop_length_add_append, ← replace_flatten_blocks h hi]
  simp [zeros]

end FileBytes

end Rows

namespace SlotFile

/-- A slot that is not there has no layout, whatever else is known of the file. -/
theorem layoutFor_of_not_lt {f : SlotFile} {slot : UInt64} (h : ¬ slot < f.count) :
    layoutFor slot f = .error (.error (.slotOutOfBounds slot)) f := by
  cases hl : f.layout <;> simp [layoutFor, Action.run_bind, hl, h]

/-- The block in a slot, if the slot is there and its bytes can be read. -/
def block? (f : SlotFile) (slot : UInt64) : Option Bytes :=
  match f.layout with
  | some l =>
    if slot < f.count ∧ l.position slot < Disk.positionLimit then
      f.bytes.read? (l.position slot).toNat l.slotSize.toNat
    else none
  | none => none

/-- The file with more slots counted as read. -/
def addReads (f : SlotFile) (n : UInt64) : SlotFile := { f with counters := f.counters.addReads n }

@[simp] theorem addReads_zero (f : SlotFile) : f.addReads 0 = f := by
  simp [addReads, SlotCounters.addReads]

theorem addReads_addReads (f : SlotFile) (i j : UInt64) :
    (f.addReads i).addReads j = f.addReads (i + j) := by
  simp [addReads, SlotCounters.addReads, UInt64.add_assoc]

@[simp] theorem block?_addReads (f : SlotFile) (n : UInt64) :
    (f.addReads n).block? = f.block? := rfl

theorem length_block? {f : SlotFile} {l : SlotLayout} {slot : UInt64} {b : Bytes}
    (hl : f.layout = some l) (h : f.block? slot = some b) : b.length = l.slotSize.toNat := by
  simp only [block?, hl] at h
  split_ifs at h with hs
  rw [FileBytes.read?_eq] at h
  split_ifs at h with hz hle
  · cases h
    exact hz.symm
  · cases h
    rw [List.length_take, List.length_drop]
    omega

theorem exists_layout_of_block? {f : SlotFile} {slot : UInt64} {b : Bytes}
    (h : f.block? slot = some b) : ∃ l, f.layout = some l := by
  cases hl : f.layout with
  | none => simp [block?, hl] at h
  | some l => exact ⟨l, rfl⟩

/-- A read of a size that is named answers the block of the slot, if that is its size, and counts
one read. -/
theorem readExactly_eq_ok_iff {f f' : SlotFile} {slot : UInt64} {n : Nat} {b : Bytes} :
    readExactly slot n f = .ok b f' ↔
      f.block? slot = some b ∧ b.length = n ∧ f' = f.addReads 1 := by
  cases hl : f.layout with
  | none => simp [readExactly, layoutFor, Action.run_bind, block?, hl]
  | some l =>
    by_cases hslot : slot < f.count
    · by_cases hn : n = l.slotSize.toNat
      · subst hn
        by_cases hpos : l.position slot < Disk.positionLimit
        · have hnot : ¬ Disk.positionLimit ≤ l.position slot := UInt64.not_le.2 hpos
          have hblock : f.block? slot = f.bytes.read? (l.position slot).toNat l.slotSize.toNat := by
            simp only [block?, hl]
            rw [if_pos ⟨hslot, hpos⟩]
          cases hr : f.bytes.read? (l.position slot).toNat l.slotSize.toNat with
          | none =>
            simp [readExactly, layoutFor, checkLength, readBytes, Action.run_bind, hl, hslot, hnot,
              hr, hblock]
          | some bs =>
            have hlen : bs.length = l.slotSize.toNat := length_block? hl (hblock.trans hr)
            simp only [readExactly, layoutFor, checkLength, readBytes, Action.run_bind, hl, hslot,
              hnot, hr, hblock, Action.run_get, Action.run_pure, Action.run_modify, if_true,
              if_false]
            constructor
            · rintro h
              cases h
              exact ⟨rfl, hlen, by rw [addReads, hl]⟩
            · rintro ⟨h, -, rfl⟩
              cases h
              rw [addReads, hl]
        · have hle : Disk.positionLimit ≤ l.position slot := UInt64.not_lt.1 hpos
          simp [readExactly, layoutFor, checkLength, readBytes, Action.run_bind, hl, hslot, hle,
            block?, hpos]
      · refine iff_of_false ?_ ?_
        · simp [readExactly, layoutFor, checkLength, Action.run_bind, hl, hslot, hn]
        · rintro ⟨hb, hlen, -⟩
          exact hn (hlen.symm.trans (length_block? hl hb))
    · simp [readExactly, layoutFor, Action.run_bind, block?, hl, hslot]

/-- A read answers the block of the slot, and counts one read. -/
theorem read_eq_ok_iff {f f' : SlotFile} {slot : UInt64} {b : Bytes} :
    read slot f = .ok b f' ↔ f.block? slot = some b ∧ f' = f.addReads 1 := by
  cases hl : f.layout with
  | none => simp [read, layoutFor, Action.run_bind, block?, hl]
  | some l =>
    by_cases hslot : slot < f.count
    · simp only [read, layoutFor, Action.run_bind, hl, hslot, Action.run_get, Action.run_pure,
        if_true, readExactly_eq_ok_iff]
      exact ⟨fun h => ⟨h.1, h.2.2⟩, fun h => ⟨h.1, length_block? hl h.1, h.2⟩⟩
    · simp [read, layoutFor, Action.run_bind, block?, hl, hslot]

/-! ### Files that agree with their handles -/

/-- Which file this is: the path that it was opened with, and the file itself. -/
def home (f : SlotFile) : String × FileId := (f.path, f.file)

/-- The handle and the bytes agree: the file is a header with the blocks of all slots behind it, and
every slot starts at a position that can be reached. -/
structure Holds (f : SlotFile) (l : SlotLayout) (head : Bytes) (blocks : List Bytes) : Prop where
  layout_eq : f.layout = some l
  contents_eq : f.bytes.contents = head ++ blocks.flatten
  length_head : head.length = l.dataStart.toNat
  length_block : ∀ b ∈ blocks, b.length = l.slotSize.toNat
  count_eq : f.count.toNat = blocks.length
  size_pos : 0 < l.slotSize.toNat
  size_lt : l.slotSize.toNat < 2 ^ 62
  reach : l.dataStart.toNat + blocks.length * l.slotSize.toNat < 2 ^ 63 + l.slotSize.toNat

namespace Holds

variable {f : SlotFile} {l : SlotLayout} {head : Bytes} {blocks : List Bytes}

theorem length_contents (h : f.Holds l head blocks) :
    f.bytes.contents.length = l.dataStart.toNat + blocks.length * l.slotSize.toNat := by
  rw [h.contents_eq, List.length_append, h.length_head, length_flatten_blocks h.length_block]

/-- The slots and the end of the file are at positions that do not wrap around. -/
theorem toNat_position (h : f.Holds l head blocks) {slot : UInt64}
    (hslot : slot.toNat ≤ blocks.length) :
    (l.position slot).toNat = l.dataStart.toNat + slot.toNat * l.slotSize.toNat := by
  have hmul : slot.toNat * l.slotSize.toNat ≤ blocks.length * l.slotSize.toNat :=
    Nat.mul_le_mul_right _ hslot
  have hreach := h.reach
  have hlt := h.size_lt
  rw [SlotLayout.position, UInt64.toNat_add, UInt64.toNat_mul, Nat.mod_eq_of_lt (a := _ * _),
    Nat.mod_eq_of_lt] <;> omega

theorem position_lt_limit (h : f.Holds l head blocks) {slot : UInt64}
    (hslot : slot.toNat < blocks.length) : l.position slot < Disk.positionLimit := by
  have hmul : (slot.toNat + 1) * l.slotSize.toNat ≤ blocks.length * l.slotSize.toNat :=
    Nat.mul_le_mul_right _ hslot
  have hreach := h.reach
  rw [UInt64.lt_iff_toNat_lt, h.toNat_position (Nat.le_of_lt hslot),
    show Disk.positionLimit.toNat = 2 ^ 63 from
    rfl]
  rw [Nat.add_mul] at hmul
  omega

theorem lt_count (h : f.Holds l head blocks) {slot : UInt64} :
    slot < f.count ↔ slot.toNat < blocks.length := by
  rw [UInt64.lt_iff_toNat_lt, h.count_eq]

/-- The block in a slot. -/
theorem block?_eq (h : f.Holds l head blocks) (slot : UInt64) :
    f.block? slot = blocks[slot.toNat]? := by
  simp only [block?, h.layout_eq]
  by_cases hslot : slot.toNat < blocks.length
  · rw [if_pos ⟨h.lt_count.2 hslot, h.position_lt_limit hslot⟩,
      h.toNat_position (Nat.le_of_lt hslot), ← h.length_head,
      FileBytes.read?_block h.contents_eq h.length_block h.size_pos hslot,
      List.getElem?_eq_getElem hslot]
  · rw [if_neg fun hs => hslot (h.lt_count.1 hs.1), List.getElem?_eq_none (Nat.le_of_not_lt hslot)]

/-- The counters have nothing to do with what the file holds. -/
theorem addReads (h : f.Holds l head blocks) (n : UInt64) : (f.addReads n).Holds l head blocks :=
  ⟨h.layout_eq, h.contents_eq, h.length_head, h.length_block, h.count_eq, h.size_pos, h.size_lt,
    h.reach⟩

theorem ne_nil (h : f.Holds l head blocks) {b : Bytes} (hb : b.length = l.slotSize.toNat) :
    b ≠ [] := by
  rintro rfl
  exact absurd hb (Nat.ne_of_lt h.size_pos)

/-- Writing a block over another one. -/
theorem contents_write (h : f.Holds l head blocks) {slot : UInt64} {b : Bytes}
    (hslot : slot.toNat < blocks.length) (hb : b.length = l.slotSize.toNat) :
    (f.bytes.write (l.position slot).toNat b).contents =
      head ++ (blocks.set slot.toNat b).flatten := by
  rw [h.toNat_position (Nat.le_of_lt hslot), ← h.length_head,
    FileBytes.contents_write_block h.contents_eq h.length_block h.size_pos hslot hb]

/-- Writing a block behind the last one. -/
theorem contents_append (h : f.Holds l head blocks) {b : Bytes} (hb : b.length = l.slotSize.toNat) :
    (f.bytes.write (l.position f.count).toNat b).contents = head ++ (blocks ++ [b]).flatten := by
  have hend : (l.position f.count).toNat = f.bytes.contents.length := by
    rw [h.toNat_position (Nat.le_of_eq h.count_eq), h.count_eq, h.length_contents]
  rw [FileBytes.contents_write_end (h.ne_nil hb) (Nat.le_of_eq hend.symm), hend, Nat.sub_self,
    h.contents_eq]
  simp [zeros]

end Holds

/-- Writing over the slots that are there changes one block. -/
theorem Holds.setBlock {f g : SlotFile} {l : SlotLayout} {head : Bytes} {blocks : List Bytes}
    {slot : UInt64} {b : Bytes} (h : f.Holds l head blocks) (hslot : slot.toNat < blocks.length)
    (hb : b.length = l.slotSize.toNat) (hlayout : g.layout = f.layout) (hcount : g.count = f.count)
    (hbytes : g.bytes = f.bytes.write (l.position slot).toNat b) :
    g.Holds l head (blocks.set slot.toNat b) where
  layout_eq := hlayout.trans h.layout_eq
  contents_eq := by rw [hbytes, h.contents_write hslot hb]
  length_head := h.length_head
  length_block c hc := (List.mem_or_eq_of_mem_set hc).elim (h.length_block c) (· ▸ hb)
  count_eq := by rw [hcount, h.count_eq, List.length_set]
  size_pos := h.size_pos
  size_lt := h.size_lt
  reach := by rw [List.length_set]; exact h.reach

/-- Writing changes the block of one slot. -/
theorem Holds.write {f : SlotFile} {l : SlotLayout} {head : Bytes} {blocks : List Bytes}
    {slot : UInt64} {b : Bytes} (h : f.Holds l head blocks) (hslot : slot.toNat < blocks.length)
    (hb : b.length = l.slotSize.toNat) :
    ∃ g, write slot b f = .ok () g ∧ g.Holds l head (blocks.set slot.toNat b) ∧
      g.home = f.home := by
  have hpos : ¬ Disk.positionLimit ≤ l.position slot := UInt64.not_le.2 (h.position_lt_limit hslot)
  refine ⟨_, ?_, h.setBlock (g := { f with
    bytes := f.bytes.write (l.position slot).toNat b
    counters := f.counters.addUpdated 1 }) hslot hb rfl rfl rfl, rfl⟩
  simp [SlotFile.write, layoutFor, checkLength, writeBytes, Action.run_bind, h.layout_eq,
    h.lt_count.2 hslot, hb, hpos]

/-- Filling a slot with zeros changes the block of this slot. -/
theorem Holds.zero {f : SlotFile} {l : SlotLayout} {head : Bytes} {blocks : List Bytes}
    {slot : UInt64} (h : f.Holds l head blocks) (hslot : slot.toNat < blocks.length) :
    ∃ g, zero slot f = .ok () g ∧
      g.Holds l head (blocks.set slot.toNat (zeros l.slotSize.toNat)) ∧ g.home = f.home := by
  have hpos : ¬ Disk.positionLimit ≤ l.position slot := UInt64.not_le.2 (h.position_lt_limit hslot)
  refine ⟨_, ?_, h.setBlock (g := { f with
    bytes := f.bytes.write (l.position slot).toNat (zeros l.slotSize.toNat)
    counters := f.counters.addDeleted 1 }) hslot (length_zeros _) rfl rfl rfl, rfl⟩
  simp [SlotFile.zero, layoutFor, writeBytes, Action.run_bind, h.layout_eq, h.lt_count.2 hslot,
    hpos]

/-- Appending adds a block at the next slot number, or fails without changing anything because the
file cannot become longer. -/
theorem Holds.append {f : SlotFile} {l : SlotLayout} {head : Bytes} {blocks : List Bytes}
    {b : Bytes} (h : f.Holds l head blocks) (hb : b.length = l.slotSize.toNat) :
    (∃ g, append b f = .ok f.count g ∧ g.Holds l head (blocks ++ [b]) ∧ g.home = f.home) ∨
      append b f = .error (.error (.io .invalidInput)) f ∧
        2 ^ 63 ≤ l.dataStart.toNat + blocks.length * l.slotSize.toNat := by
  have htoNat := h.toNat_position (Nat.le_of_eq h.count_eq)
  rw [h.count_eq] at htoNat
  by_cases hpos : Disk.positionLimit ≤ l.position f.count
  · refine .inr ⟨?_, ?_⟩
    · simp [SlotFile.append, checkLength, writeBytes, Action.run_bind, h.layout_eq, hb, hpos]
    · rw [← htoNat]
      exact UInt64.le_iff_toNat_le.1 hpos
  · have hlt : l.dataStart.toNat + blocks.length * l.slotSize.toNat < 2 ^ 63 := by
      rw [← htoNat]
      exact UInt64.lt_iff_toNat_lt.1 (UInt64.not_le.1 hpos)
    have hcount : blocks.length ≤ blocks.length * l.slotSize.toNat :=
      Nat.le_mul_of_pos_right _ h.size_pos
    refine .inl ⟨{ f with
      bytes := f.bytes.write (l.position f.count).toNat b
      count := f.count + 1
      counters := f.counters.addAppended 1 }, ?_, ?_, rfl⟩
    · simp only [SlotFile.append, checkLength, writeBytes, Action.run_bind, Action.run_get,
        Action.run_pure, Action.run_modify, h.layout_eq, hb, hpos, if_true, if_false]
    · refine ⟨h.layout_eq, h.contents_append hb, h.length_head, ?_, ?_, h.size_pos, h.size_lt, ?_⟩
      · intro c hc
        rcases List.mem_append.1 hc with hc | hc
        · exact h.length_block c hc
        · rw [List.mem_singleton.1 hc]
          exact hb
      · rw [UInt64.toNat_add, h.count_eq, List.length_append, Nat.mod_eq_of_lt]
        · rfl
        · show blocks.length + 1 < 2 ^ 64
          omega
      · rw [List.length_append, List.length_singleton, Nat.add_mul]
        omega

end SlotFile
end RecordIndex
