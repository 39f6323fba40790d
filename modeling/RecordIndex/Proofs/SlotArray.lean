import RecordIndex.Proofs.BlockArray
import RecordIndex.Proofs.Counters
import RecordIndex.Proofs.Writes

/-!
# Slot files as arrays of blocks

A slot file that starts empty behaves as the array of blocks (`BlockArray`) that is empty at first.

* `SlotFile.Carries f l a`: the bytes of the file are those of the array, and the handle knows the
  layout and the number of blocks.
* `SlotFile.Carries.acts`: one call does to the file what it does to the array.
* `SlotFile.Carries.run`: so does a row of calls.
* `SlotCall.whole_run`: a call that fails changes nothing, and one that succeeds is counted.
* `SlotCall.array_of_blocks`: all of this for a file without bytes.
-/

namespace RecordIndex

open RecordIndex.Action

namespace SlotFile

/-! ### Files that carry an array -/

/-- The bytes of the file are those of the array, and the handle knows the layout and the number of
blocks. Without blocks the bytes in front may be fewer than the layout leaves room for. -/
structure Carries (f : SlotFile) (l : SlotLayout) (a : BlockArray) : Prop where
  layout_eq : f.layout = some l
  contents_eq : f.bytes.contents = a.contents
  count_eq : f.count.toNat = a.blocks.length
  length_block : ∀ b ∈ a.blocks, b.length = l.slotSize.toNat
  head_le : a.head.length ≤ l.dataStart.toNat
  head_eq : a.blocks ≠ [] → a.head.length = l.dataStart.toNat
  size_pos : 0 < l.slotSize.toNat
  start_lt : l.dataStart.toNat < 2 ^ 63
  length_lt : f.bytes.contents.length < 2 ^ 63

namespace Carries

variable {f : SlotFile} {l : SlotLayout} {a : BlockArray} {slot : UInt64}

theorem length_contents (h : f.Carries l a) (hne : a.blocks ≠ []) :
    f.bytes.contents.length = l.dataStart.toNat + a.blocks.length * l.slotSize.toNat := by
  rw [h.contents_eq, BlockArray.contents, List.length_append, h.head_eq hne,
    length_flatten_blocks h.length_block]

/-- The blocks end at a position that can be reached, and no bytes are behind it. -/
theorem length_le_end (h : f.Carries l a) : f.bytes.contents.length ≤
      l.dataStart.toNat + a.blocks.length * l.slotSize.toNat ∧
    l.dataStart.toNat + a.blocks.length * l.slotSize.toNat < 2 ^ 63 := by
  by_cases hne : a.blocks = []
  · have hhead := h.head_le
    have hstart := h.start_lt
    simp only [h.contents_eq, BlockArray.contents, hne, List.flatten_nil, List.append_nil,
      List.length_nil, Nat.zero_mul, Nat.add_zero]
    exact ⟨hhead, hstart⟩
  · rw [← h.length_contents hne]
    exact ⟨Nat.le_refl _, h.length_lt⟩

/-- No position wraps around, up to the end of the blocks. -/
theorem toNat_position (h : f.Carries l a) (hslot : slot.toNat ≤ a.blocks.length) :
    (l.position slot).toNat = l.dataStart.toNat + slot.toNat * l.slotSize.toNat := by
  have hmul : slot.toNat * l.slotSize.toNat ≤ a.blocks.length * l.slotSize.toNat :=
    Nat.mul_le_mul_right _ hslot
  have hend := h.length_le_end.2
  rw [SlotLayout.position, UInt64.toNat_add, UInt64.toNat_mul, Nat.mod_eq_of_lt (a := _ * _),
    Nat.mod_eq_of_lt] <;> omega

theorem position_lt_limit (h : f.Carries l a) (hslot : slot.toNat ≤ a.blocks.length) :
    l.position slot < Disk.positionLimit := by
  have hmul : slot.toNat * l.slotSize.toNat ≤ a.blocks.length * l.slotSize.toNat :=
    Nat.mul_le_mul_right _ hslot
  have hend := h.length_le_end.2
  rw [UInt64.lt_iff_toNat_lt, h.toNat_position hslot, show Disk.positionLimit.toNat = 2 ^ 63 from rfl]
  omega

theorem lt_count (h : f.Carries l a) : slot < f.count ↔ slot.toNat < a.blocks.length := by
  rw [UInt64.lt_iff_toNat_lt, h.count_eq]

theorem layoutFor_of_not_lt (h : f.Carries l a) (hslot : ¬ slot.toNat < a.blocks.length) :
    layoutFor slot f = .error (.error (.slotOutOfBounds slot)) f :=
  SlotFile.layoutFor_of_not_lt fun hlt => hslot (h.lt_count.1 hlt)

/-- The counters have nothing to do with the array. -/
theorem congr {g : SlotFile} (h : f.Carries l a) (hlayout : g.layout = f.layout)
    (hcount : g.count = f.count) (hbytes : g.bytes = f.bytes) : g.Carries l a :=
  ⟨hlayout.trans h.layout_eq, hbytes ▸ h.contents_eq, hcount ▸ h.count_eq, h.length_block, h.head_le,
    h.head_eq, h.size_pos, h.start_lt, hbytes ▸ h.length_lt⟩

section Slot

variable (h : f.Carries l a) (hslot : slot.toNat < a.blocks.length)
include h hslot

theorem read?_eq : f.bytes.read? (l.position slot).toNat l.slotSize.toNat =
    some a.blocks[slot.toNat] := by
  have hne : a.blocks ≠ [] := List.ne_nil_of_length_pos (by omega)
  rw [h.toNat_position (Nat.le_of_lt hslot), ← h.head_eq hne]
  exact FileBytes.read?_block h.contents_eq h.length_block h.size_pos hslot

/-- A block is written over another one. -/
theorem setBlock {g : SlotFile} {b : Bytes} (hb : b.length = l.slotSize.toNat)
    (hlayout : g.layout = f.layout) (hcount : g.count = f.count)
    (hbytes : g.bytes = f.bytes.write (l.position slot).toNat b) :
    g.Carries l { a with blocks := a.blocks.set slot.toNat b } := by
  have hne : a.blocks ≠ [] := List.ne_nil_of_length_pos (by omega)
  have hcontents : g.bytes.contents = a.head ++ (a.blocks.set slot.toNat b).flatten := by
    rw [hbytes, h.toNat_position (Nat.le_of_lt hslot), ← h.head_eq hne]
    exact FileBytes.contents_write_block h.contents_eq h.length_block h.size_pos hslot hb
  have hlength : ∀ c ∈ a.blocks.set slot.toNat b, c.length = l.slotSize.toNat := fun c hc =>
    (List.mem_or_eq_of_mem_set hc).elim (h.length_block c) (· ▸ hb)
  refine ⟨hlayout.trans h.layout_eq, hcontents, ?_, hlength, h.head_le, fun _ => h.head_eq hne,
    h.size_pos, h.start_lt, ?_⟩
  · rw [hcount, h.count_eq, List.length_set]
  · rw [hcontents, List.length_append, length_flatten_blocks hlength, List.length_set, h.head_eq hne,
      ← h.length_contents hne]
    exact h.length_lt

end Slot

/-- A block is written behind the last one. -/
theorem appendBlock {g : SlotFile} {b : Bytes} (h : f.Carries l a)
    (hb : b.length = l.slotSize.toNat) (hlayout : g.layout = f.layout)
    (hcount : g.count = f.count + 1)
    (hbytes : g.bytes = f.bytes.write (l.position f.count).toNat b)
    (hlength : g.bytes.contents.length < 2 ^ 63) :
    g.Carries l ⟨padTo l.dataStart.toNat a.head, a.blocks ++ [b]⟩ := by
  have hne : b ≠ [] := List.ne_nil_of_length_pos (hb ▸ h.size_pos)
  have hend := h.length_le_end
  have hcontents : g.bytes.contents =
      padTo l.dataStart.toNat a.head ++ (a.blocks ++ [b]).flatten := by
    rw [hbytes, h.toNat_position (Nat.le_of_eq h.count_eq), h.count_eq,
      FileBytes.contents_write_end hne hend.1]
    by_cases hblocks : a.blocks = []
    · simp [h.contents_eq, BlockArray.contents, hblocks, padTo]
    · rw [h.length_contents hblocks, h.contents_eq]
      simp [BlockArray.contents, padTo, h.head_eq hblocks, zeros]
  refine ⟨hlayout.trans h.layout_eq, hcontents, ?_, ?_, Nat.le_of_eq (length_padTo h.head_le),
    fun _ => length_padTo h.head_le, h.size_pos, h.start_lt, hlength⟩
  · have hle : a.blocks.length ≤ a.blocks.length * l.slotSize.toNat :=
      Nat.le_mul_of_pos_right _ h.size_pos
    rw [hcount, UInt64.toNat_add, h.count_eq, List.length_append, List.length_singleton]
    show (a.blocks.length + 1) % 2 ^ 64 = a.blocks.length + 1
    omega
  · intro c hc
    rcases List.mem_append.1 hc with hc | hc
    · exact h.length_block c hc
    · rw [List.mem_singleton.1 hc]
      exact hb

/-- The bytes in front of the blocks are written. -/
theorem setHead {g : SlotFile} {pos : Nat} {bs : Bytes} (h : f.Carries l a)
    (hin : pos + bs.length ≤ l.dataStart.toNat) (hlayout : g.layout = f.layout)
    (hcount : g.count = f.count) (hbytes : g.bytes = f.bytes.write pos bs) :
    g.Carries l { a with head := overwrite a.head pos bs } := by
  have hle := length_overwrite_le h.head_le hin
  have hstart := h.start_lt
  by_cases hblocks : a.blocks = []
  · have hcontents : g.bytes.contents = overwrite a.head pos bs := by
      rw [hbytes, FileBytes.contents_write_overwrite, h.contents_eq, BlockArray.contents, hblocks,
        List.flatten_nil, List.append_nil]
    refine ⟨hlayout.trans h.layout_eq, ?_, hcount ▸ h.count_eq, h.length_block, hle,
      fun hne => absurd hblocks hne, h.size_pos, hstart, ?_⟩
    · rw [hcontents, BlockArray.contents, hblocks, List.flatten_nil, List.append_nil]
    · rw [hcontents]
      omega
  · have hhead := h.head_eq hblocks
    have hlength : (overwrite a.head pos bs).length = a.head.length :=
      length_overwrite (by omega)
    have hcontents : g.bytes.contents = overwrite a.head pos bs ++ a.blocks.flatten := by
      rw [hbytes, FileBytes.contents_write_overwrite, h.contents_eq, BlockArray.contents,
        overwrite_append (by omega)]
    refine ⟨hlayout.trans h.layout_eq, hcontents, hcount ▸ h.count_eq, h.length_block, hle,
      fun _ => hlength.trans hhead, h.size_pos, hstart, ?_⟩
    have hlt := h.length_lt
    rw [h.contents_eq, BlockArray.contents, List.length_append] at hlt
    rwa [hcontents, List.length_append, hlength]

/-- All bytes are dropped. -/
theorem dropAll {g : SlotFile} (h : f.Carries l a) (hlayout : g.layout = f.layout)
    (hcount : g.count = 0) (hbytes : g.bytes = f.bytes.setLength 0) : g.Carries l .empty := by
  have hcontents : g.bytes.contents = [] := by
    rw [hbytes, FileBytes.contents_setLength]
    simp [zeros]
  refine ⟨hlayout.trans h.layout_eq, hcontents, ?_, by simp [BlockArray.empty], Nat.zero_le _,
    fun hne => absurd rfl hne, h.size_pos, h.start_lt, ?_⟩
  · rw [hcount]
    rfl
  · rw [hcontents]
    decide

/-! ### One call -/

/-- The call answers what the array answers, and leaves a file that carries what the array becomes. -/
def Acts (f : SlotFile) (l : SlotLayout) (a : BlockArray) (c : SlotCall) : Prop :=
  answer (c.run f) = (a.apply l c).1.mapError Failure.error ∧
    (finalState (c.run f)).Carries l (a.apply l c).2

theorem acts_of_ok {c : SlotCall} {g : SlotFile} {r : SlotReply} {a' : BlockArray}
    (hrun : c.run f = .ok r g) (happly : a.apply l c = (.ok r, a')) (hg : g.Carries l a') :
    Acts f l a c := by
  rw [Acts, hrun, happly]
  exact ⟨rfl, hg⟩

theorem acts_of_error {c : SlotCall} {e : Error} (h : f.Carries l a)
    (hrun : c.run f = .error (.error e) f) (happly : a.apply l c = (.error e, a)) : Acts f l a c := by
  rw [Acts, hrun, happly]
  exact ⟨rfl, h⟩

end Carries

open Carries

variable {f : SlotFile} {l : SlotLayout} {a : BlockArray} {slot : UInt64}

theorem Carries.acts_append (h : f.Carries l a) (bs : Bytes)
    (hlength : (finalState ((SlotCall.append bs).run f)).bytes.contents.length < 2 ^ 63) :
    Acts f l a (.append bs) := by
  by_cases hbs : bs.length = l.slotSize.toNat
  · have hpos : ¬ Disk.positionLimit ≤ l.position f.count :=
      UInt64.not_le.2 (h.position_lt_limit (Nat.le_of_eq h.count_eq))
    have hrun : (SlotCall.append bs).run f = .ok (.number a.blocks.length) { f with
        bytes := f.bytes.write (l.position f.count).toNat bs
        count := f.count + 1
        counters := f.counters.addAppended 1 } := by
      simp [SlotCall.run, run_map, append, checkLength, writeBytes, run_bind, h.layout_eq, hbs, hpos,
        h.count_eq]
    rw [hrun] at hlength
    exact acts_of_ok hrun (if_pos hbs) (h.appendBlock hbs rfl rfl rfl hlength)
  · refine acts_of_error h ?_ (if_neg hbs)
    simp [SlotCall.run, run_map, append, checkLength, run_bind, h.layout_eq, hbs]

theorem Carries.acts_write (h : f.Carries l a) (slot : UInt64) (bs : Bytes) :
    Acts f l a (.write slot bs) := by
  by_cases hslot : slot.toNat < a.blocks.length
  · have hcount := h.lt_count.2 hslot
    by_cases hbs : bs.length = l.slotSize.toNat
    · have hpos : ¬ Disk.positionLimit ≤ l.position slot :=
        UInt64.not_le.2 (h.position_lt_limit (Nat.le_of_lt hslot))
      refine acts_of_ok (g := { f with
        bytes := f.bytes.write (l.position slot).toNat bs
        counters := f.counters.addUpdated 1 }) ?_ ((if_pos hslot).trans (if_pos hbs))
        (h.setBlock hslot hbs rfl rfl rfl)
      simp [SlotCall.run, run_map, write, layoutFor, checkLength, writeBytes, run_bind, h.layout_eq,
        hcount, hbs, hpos]
    · refine acts_of_error h ?_ ((if_pos hslot).trans (if_neg hbs))
      simp [SlotCall.run, run_map, write, layoutFor, checkLength, run_bind, h.layout_eq, hcount, hbs]
  · refine acts_of_error h ?_ (if_neg hslot)
    simp [SlotCall.run, run_map, write, run_bind, h.layoutFor_of_not_lt hslot]

theorem Carries.acts_zero (h : f.Carries l a) (slot : UInt64) : Acts f l a (.zero slot) := by
  by_cases hslot : slot.toNat < a.blocks.length
  · have hpos : ¬ Disk.positionLimit ≤ l.position slot :=
      UInt64.not_le.2 (h.position_lt_limit (Nat.le_of_lt hslot))
    refine acts_of_ok (g := { f with
      bytes := f.bytes.write (l.position slot).toNat (zeros l.slotSize.toNat)
      counters := f.counters.addDeleted 1 }) ?_ (if_pos hslot)
      (h.setBlock hslot (length_zeros _) rfl rfl rfl)
    simp [SlotCall.run, run_map, zero, layoutFor, writeBytes, run_bind, h.layout_eq,
      h.lt_count.2 hslot, hpos]
  · refine acts_of_error h ?_ (if_neg hslot)
    simp [SlotCall.run, run_map, zero, run_bind, h.layoutFor_of_not_lt hslot]

theorem Carries.acts_readExactly (h : f.Carries l a) (slot : UInt64) (n : Nat) :
    Acts f l a (.readExactly slot n) := by
  by_cases hslot : slot.toNat < a.blocks.length
  · have hcount := h.lt_count.2 hslot
    have hblock : a.blocks[slot.toNat]? = some a.blocks[slot.toNat] := List.getElem?_eq_getElem hslot
    by_cases hn : n = l.slotSize.toNat
    · have hpos : ¬ Disk.positionLimit ≤ l.position slot :=
        UInt64.not_le.2 (h.position_lt_limit (Nat.le_of_lt hslot))
      refine acts_of_ok (r := .block a.blocks[slot.toNat]) (g := f.addReads 1) ?_ ?_
        (h.congr rfl rfl rfl)
      · simp [SlotCall.run, run_map, readExactly, layoutFor, checkLength, readBytes, run_bind,
          h.layout_eq, hcount, hn, hpos, h.read?_eq hslot, addReads]
      · simp [BlockArray.apply, hblock, hn]
    · refine acts_of_error (e := .slotSizeMismatch l.slotSize.toNat n) h ?_ ?_
      · simp [SlotCall.run, run_map, readExactly, layoutFor, checkLength, run_bind, h.layout_eq, hcount,
          hn]
      · simp [BlockArray.apply, hblock, hn]
  · refine acts_of_error (e := .slotOutOfBounds slot) h ?_ ?_
    · simp [SlotCall.run, run_map, readExactly, run_bind, h.layoutFor_of_not_lt hslot]
    · simp [BlockArray.apply, List.getElem?_eq_none (Nat.le_of_not_lt hslot)]

/-- Reading a slot is reading it with its size. -/
theorem run_read (h : f.Carries l a) (slot : UInt64) :
    (SlotCall.read slot).run f = (SlotCall.readExactly slot l.slotSize.toNat).run f := by
  by_cases hslot : slot < f.count <;>
    simp [SlotCall.run, run_map, read, readExactly, layoutFor, run_bind, h.layout_eq, hslot]

theorem Carries.acts_read (h : f.Carries l a) (slot : UInt64) : Acts f l a (.read slot) := by
  have hexactly := h.acts_readExactly slot l.slotSize.toNat
  have happly : a.apply l (.read slot) = a.apply l (.readExactly slot l.slotSize.toNat) := by
    simp [BlockArray.apply]
  rwa [Acts, run_read h, happly]

theorem Carries.acts_clear (h : f.Carries l a) : Acts f l a .clear :=
  acts_of_ok (g := { f with bytes := f.bytes.setLength 0, count := 0 }) rfl rfl
    (h.dropAll rfl rfl rfl)

theorem Carries.acts_writeBytes (h : f.Carries l a) {pos : UInt64} {bs : Bytes}
    (hin : pos.toNat + bs.length ≤ l.dataStart.toNat) : Acts f l a (.writeBytes pos bs) := by
  have hpos : ¬ Disk.positionLimit ≤ pos := by
    have hstart := h.start_lt
    rw [UInt64.le_iff_toNat_le, show Disk.positionLimit.toNat = 2 ^ 63 from rfl]
    omega
  refine acts_of_ok (g := { f with bytes := f.bytes.write pos.toNat bs }) ?_ rfl
    (h.setHead hin rfl rfl rfl)
  simp [SlotCall.run, run_map, writeBytes, hpos]

/-- A call does to the file what it does to the array, if the file does not become too long. -/
theorem Carries.acts (h : f.Carries l a) (c : SlotCall) (hraw : c.StaysInHeader l)
    (hlength : (finalState (c.run f)).bytes.contents.length < 2 ^ 63) : Acts f l a c := by
  cases c with
  | append bs => exact h.acts_append bs hlength
  | write slot bs => exact h.acts_write slot bs
  | zero slot => exact h.acts_zero slot
  | read slot => exact h.acts_read slot
  | readExactly slot n => exact h.acts_readExactly slot n
  | clear => exact h.acts_clear
  | writeBytes pos bs => exact h.acts_writeBytes hraw

/-- A row of calls does to the file what it does to the array. -/
theorem Carries.run (h : f.Carries l a) (calls : List SlotCall)
    (hraw : ∀ c ∈ calls, c.StaysInHeader l)
    (hlength : ∀ k, (SlotCall.leave (calls.take k) f).bytes.contents.length < 2 ^ 63) :
    SlotCall.replies calls f =
        (BlockArray.replies l calls a).map (·.mapError Failure.error) ∧
      (SlotCall.leave calls f).Carries l (BlockArray.leave l calls a) := by
  induction calls generalizing f a with
  | nil => exact ⟨rfl, h⟩
  | cons c calls ih =>
    obtain ⟨hanswer, hleft⟩ := h.acts c (hraw c List.mem_cons_self) (hlength 1)
    obtain ⟨hreplies, hlast⟩ := ih hleft (fun c hc => hraw c (List.mem_cons_of_mem _ hc))
      fun k => hlength (k + 1)
    refine ⟨?_, hlast⟩
    rw [SlotCall.replies, BlockArray.replies, List.map_cons, hanswer, hreplies]

/-- A layout with slots of some size can be set on a file without bytes. -/
theorem exists_layOut (hsize : l.slotSize ≠ 0) (hempty : f.bytes.contents = [])
    (hstart : l.dataStart.toNat < 2 ^ 63) :
    ∃ g, layOut l f = .ok () g ∧ g.Carries l .empty ∧ g.counters = f.counters := by
  have hlength : f.bytes.length = 0 := by
    rw [FileBytes.length_eq, hempty]
    rfl
  have hpos : 0 < l.slotSize.toNat :=
    Nat.pos_of_ne_zero fun h0 => hsize (UInt64.toNat_inj.1 h0)
  refine ⟨{ f with layout := some l, count := 0 }, ?_, ?_, rfl⟩
  · simp [layOut, hsize, run_bind, hlength]
  · exact ⟨rfl, hempty, rfl, by simp [BlockArray.empty], Nat.zero_le _, fun hne => absurd rfl hne, hpos,
      hstart, by simp [hempty]⟩

end SlotFile

/-! ### Failures and counters -/

section Counters

variable (f : SlotFile) (slot : UInt64) (bs : Bytes)

theorem SlotFile.counts_append : Whole (append bs) f
    (fun _ g => g.counters = f.counters.addAppended 1) fun _ => True := by
  refine whole_get_bind ?_
  cases f.layout with
  | none => exact whole_fail trivial
  | some l =>
    refine ((whole_checkLength l _ f).mono (fun _ _ h => h) fun _ _ => trivial).bind fun _ _ => ?_
    refine ((whole_writeBytes _ bs f).mono (fun _ _ h => h) fun _ _ => trivial).bind_ok ?_
    rintro _ g ⟨-, rfl⟩
    exact ⟨_, _, rfl, rfl⟩

theorem SlotFile.counts_write : Whole (write slot bs) f
    (fun _ g => g.counters = f.counters.addUpdated 1) fun _ => True := by
  refine ((whole_layoutFor slot f).mono (fun _ _ h => h) fun _ _ => trivial).bind fun l _ => ?_
  refine ((whole_checkLength l _ f).mono (fun _ _ h => h) fun _ _ => trivial).bind fun _ _ => ?_
  refine ((whole_writeBytes _ bs f).mono (fun _ _ h => h) fun _ _ => trivial).bind_ok ?_
  rintro _ g ⟨-, rfl⟩
  exact ⟨_, _, rfl, rfl⟩

theorem SlotFile.counts_zero : Whole (zero slot) f
    (fun _ g => g.counters = f.counters.addDeleted 1) fun _ => True := by
  refine ((whole_layoutFor slot f).mono (fun _ _ h => h) fun _ _ => trivial).bind fun l _ => ?_
  refine ((whole_writeBytes _ _ f).mono (fun _ _ h => h) fun _ _ => trivial).bind_ok ?_
  rintro _ g ⟨-, rfl⟩
  exact ⟨_, _, rfl, rfl⟩

end Counters

namespace SlotCall

variable {f : SlotFile} {l : SlotLayout} {a : BlockArray} {slot : UInt64}

/-- One for a call of a kind that succeeds. -/
def point (c : SlotCall) (k : Kind) (reply : Except Failure SlotReply) : Nat :=
  if c.kind? = some k ∧ reply.isOk = true then 1 else 0

/-- What is counted for a call. -/
def score (c : SlotCall) (reply : Except Failure SlotReply) : SlotCounters :=
  ⟨.ofNat (c.point .read reply), .ofNat (c.point .append reply), .ofNat (c.point .write reply),
    .ofNat (c.point .zero reply)⟩

@[simp] theorem point_ok (c : SlotCall) (k : Kind) (r : SlotReply) :
    c.point k (.ok r) = if c.kind? = some k then 1 else 0 := by
  simp [point, Except.isOk, Except.toBool]

@[simp] theorem point_error (c : SlotCall) (k : Kind) (e : Failure) : c.point k (.error e) = 0 := by
  simp [point, Except.isOk, Except.toBool]

/-- A call that fails changes nothing, and one that succeeds is counted. -/
theorem whole_run (c : SlotCall) (f : SlotFile) :
    Whole c.run f (fun r g => g.counters = f.counters.add (c.score (.ok r))) fun _ => True := by
  cases c with
  | append bs =>
    refine Whole.map ((SlotFile.counts_append f bs).mono (fun n g h => ?_) fun _ h => h)
    simp [h, score, kind?, SlotCounters.add, SlotCounters.addAppended]
  | write slot bs =>
    refine Whole.map ((SlotFile.counts_write f slot bs).mono (fun _ g h => ?_) fun _ h => h)
    simp [h, score, kind?, SlotCounters.add, SlotCounters.addUpdated]
  | zero slot =>
    refine Whole.map ((SlotFile.counts_zero f slot).mono (fun _ g h => ?_) fun _ h => h)
    simp [h, score, kind?, SlotCounters.add, SlotCounters.addDeleted]
  | read slot =>
    refine Whole.map ((SlotFile.whole_read slot f).mono (fun _ g h => ?_) fun _ _ => trivial)
    simp [h, score, kind?, SlotCounters.add, SlotFile.addReads, SlotCounters.addReads]
  | readExactly slot n =>
    refine Whole.map ((SlotFile.whole_readExactly slot n f).mono (fun _ g h => ?_) fun _ _ => trivial)
    simp [h.2, score, kind?, SlotCounters.add, SlotFile.addReads, SlotCounters.addReads]
  | clear => simp [Whole, run, run_map, SlotFile.clear, score, kind?, SlotCounters.add]
  | writeBytes pos bs =>
    refine Whole.map ((SlotFile.whole_writeBytes pos bs f).mono (fun _ g h => ?_) fun _ _ => trivial)
    simp [h.2, score, kind?, SlotCounters.add]

theorem counters_run (c : SlotCall) (f : SlotFile) :
    (finalState (c.run f)).counters = f.counters.add (c.score (answer (c.run f))) := by
  cases hrun : c.run f with
  | ok r g => exact (c.whole_run f).of_ok hrun
  | error e g =>
    obtain ⟨rfl, -⟩ := (c.whole_run f).of_error hrun
    simp [finalState, answer, score, SlotCounters.add]

theorem succeeded_cons (k : Kind) (c : SlotCall) (calls : List SlotCall) (f : SlotFile) :
    succeeded k (c :: calls) f =
      c.point k (answer (c.run f)) + succeeded k calls (finalState (c.run f)) := by
  rw [succeeded, replies, List.zip_cons_cons, List.countP_cons, Nat.add_comm, succeeded, point]
  simp only [decide_eq_true_eq]

/-- The counters of a row of calls are those of the calls that succeed. -/
theorem counters_leave (calls : List SlotCall) (f : SlotFile) :
    (leave calls f).counters = f.counters.add
      ⟨.ofNat (succeeded .read calls f), .ofNat (succeeded .append calls f),
        .ofNat (succeeded .write calls f), .ofNat (succeeded .zero calls f)⟩ := by
  induction calls generalizing f with
  | nil => simp [leave, succeeded, replies, SlotCounters.add]
  | cons c calls ih =>
    simp only [leave, ih, counters_run, succeeded_cons, SlotCounters.add, score, UInt64.ofNat_add,
      UInt64.add_assoc]

end SlotCall

/-! ### Rows of calls -/

namespace SlotFile.Carries

variable {f : SlotFile} {l : SlotLayout} {a : BlockArray} {slot : UInt64}

/-- Setting a block changes no byte of another block and none in front of the blocks. -/
theorem getElem?_setBlock (h : f.Carries l a) (hslot : slot.toNat < a.blocks.length) {b : Bytes}
    (hb : b.length = l.slotSize.toNat) {i : Nat}
    (hi : i < l.dataStart.toNat + slot.toNat * l.slotSize.toNat ∨
      l.dataStart.toNat + slot.toNat * l.slotSize.toNat + l.slotSize.toNat ≤ i) :
    (a.head ++ (a.blocks.set slot.toNat b).flatten)[i]? = a.contents[i]? := by
  have hne : a.blocks ≠ [] := List.ne_nil_of_length_pos (by omega)
  have hbne : b ≠ [] := List.ne_nil_of_length_pos (hb ▸ h.size_pos)
  have hmul : (slot.toNat + 1) * l.slotSize.toNat ≤ a.blocks.length * l.slotSize.toNat :=
    Nat.mul_le_mul_right _ hslot
  have hlength := h.length_contents hne
  rw [← FileBytes.contents_write_block h.contents_eq h.length_block h.size_pos hslot hb,
    h.head_eq hne, ← h.contents_eq]
  rw [Nat.add_mul, Nat.one_mul] at hmul
  rcases hi with hi | hi
  · exact FileBytes.getElem?_write_of_lt hbne hi (by omega)
  · exact FileBytes.getElem?_write_of_le hbne (by omega)

/-- A call that writes over a slot changes no byte outside of it. -/
theorem getElem?_of_target (h : f.Carries l a) {c : SlotCall} (hc : c.target? = some slot) {i : Nat}
    (hi : i < l.dataStart.toNat + slot.toNat * l.slotSize.toNat ∨
      l.dataStart.toNat + slot.toNat * l.slotSize.toNat + l.slotSize.toNat ≤ i) :
    (finalState (c.run f)).bytes.contents[i]? = f.bytes.contents[i]? := by
  cases c with
  | write slot' bs =>
    cases hc
    rw [(h.acts_write slot bs).2.contents_eq, h.contents_eq]
    simp only [BlockArray.apply]
    split_ifs with hslot hbs
    · exact h.getElem?_setBlock hslot hbs hi
    · rfl
    · rfl
  | zero slot' =>
    cases hc
    rw [(h.acts_zero slot).2.contents_eq, h.contents_eq]
    simp only [BlockArray.apply]
    split_ifs with hslot
    · exact h.getElem?_setBlock hslot (length_zeros _) hi
    · rfl
  | append bs => cases hc
  | read slot' => cases hc
  | readExactly slot' n => cases hc
  | clear => cases hc
  | writeBytes pos bs => cases hc

end SlotFile.Carries

/-- A slot file is an array of blocks. On a file without bytes every layout can be set that gives the
slots a size, and from then on each row of calls is answered as by the array that is empty at first,
where raw bytes are only written in front of the slots and the file does not become too long. After each
such row

* the bytes of the file are those of the array, and the handle knows its number of blocks and still the
  layout, so that with any blocks the file is as long as the bytes in front of them and they are;
* no position of a slot wraps around, nor does that of the next one;
* a call that fails changes nothing, neither the file nor the count;
* writing over a slot changes no byte of another one and none in front of the slots;
* the counters are the numbers of calls that have succeeded, as 64-bit words. -/
theorem SlotCall.array_of_blocks {f₀ : SlotFile} {l : SlotLayout} (hsize : l.slotSize ≠ 0)
    (hstart : l.dataStart.toNat < 2 ^ 63) (hempty : f₀.bytes.contents = [])
    (hzero : f₀.counters = .zero) :
    ∃ f, SlotFile.layOut l f₀ = .ok () f ∧ ∀ calls : List SlotCall,
      (∀ c ∈ calls, c.StaysInHeader l) →
      (∀ k, (leave (calls.take k) f).bytes.contents.length < 2 ^ 63) →
      let g := leave calls f
      let a := BlockArray.leave l calls .empty
      replies calls f = (BlockArray.replies l calls .empty).map (·.mapError Failure.error) ∧
      (g.bytes.contents = a.contents ∧ g.count.toNat = a.blocks.length ∧ g.layout = some l) ∧
      (0 < g.count.toNat → g.bytes.contents.length =
        l.dataStart.toNat + g.count.toNat * l.slotSize.toNat) ∧
      (∀ slot : UInt64, slot.toNat ≤ g.count.toNat →
        (l.position slot).toNat = l.dataStart.toNat + slot.toNat * l.slotSize.toNat) ∧
      (∀ (c : SlotCall) (e : Failure) (g' : SlotFile), c.run g = .error e g' → g' = g) ∧
      (∀ (c : SlotCall) (slot : UInt64), c.target? = some slot → ∀ i,
        (i < l.dataStart.toNat + slot.toNat * l.slotSize.toNat ∨
          l.dataStart.toNat + slot.toNat * l.slotSize.toNat + l.slotSize.toNat ≤ i) →
        (finalState (c.run g)).bytes.contents[i]? = g.bytes.contents[i]?) ∧
      g.counters = ⟨.ofNat (succeeded .read calls f), .ofNat (succeeded .append calls f),
        .ofNat (succeeded .write calls f), .ofNat (succeeded .zero calls f)⟩ := by
  obtain ⟨f, hlayOut, hf, hcounters⟩ := SlotFile.exists_layOut hsize hempty hstart
  refine ⟨f, hlayOut, fun calls hraw hlength => ?_⟩
  obtain ⟨hreplies, hg⟩ := hf.run calls hraw hlength
  refine ⟨hreplies, ⟨hg.contents_eq, hg.count_eq, hg.layout_eq⟩, fun hpos => ?_, fun slot hslot => ?_,
    fun c e g' he => ?_, fun c slot hc i => hg.getElem?_of_target hc, ?_⟩
  · rw [hg.count_eq] at hpos ⊢
    exact hg.length_contents (List.ne_nil_of_length_pos hpos)
  · exact hg.toNat_position (hg.count_eq ▸ hslot)
  · exact ((c.whole_run _).of_error he).1
  · rw [counters_leave, hcounters, hzero]
    simp [SlotCounters.add, SlotCounters.zero]

/-- Some calls to a file with slots of two bytes behind four bytes. -/
def pairCalls : List SlotCall :=
  [.writeBytes 0 [9], .append [1, 2], .write 0 [3, 4], .read 0, .read 7]

theorem SlotCall.array_of_blocks_pairCalls :
    ∃ f, SlotFile.layOut ⟨2, 4⟩ (.ofBytes "pairs" ⟨0⟩ .empty) = .ok () f ∧
      replies pairCalls f = [.ok .done, .ok (.number 0), .ok .done, .ok (.block [3, 4]),
        .error (.error (.slotOutOfBounds 7))] ∧
      (leave pairCalls f).bytes.contents = [9, 0, 0, 0, 3, 4] := by
  have hempty : (SlotFile.ofBytes "pairs" ⟨0⟩ .empty).bytes.contents = [] := rfl
  obtain ⟨f, hlayOut, hcalls⟩ := array_of_blocks (l := ⟨2, 4⟩) (by decide) (by decide) hempty rfl
  obtain rfl : ⟨"pairs", ⟨0⟩, .empty, some ⟨2, 4⟩, 0, .zero⟩ = f := by
    cases hlayOut
    rfl
  have hraw : ∀ c ∈ pairCalls, c.StaysInHeader ⟨2, 4⟩ := by
    simp [pairCalls, StaysInHeader]
  have hlength : ∀ k, (leave (pairCalls.take k)
      ⟨"pairs", ⟨0⟩, .empty, some ⟨2, 4⟩, 0, .zero⟩).bytes.contents.length < 2 ^ 63 := by
    intro k
    rcases k with _ | _ | _ | _ | _ | k
    · decide +kernel
    · decide +kernel
    · decide +kernel
    · decide +kernel
    · decide +kernel
    · simp only [pairCalls, List.take_succ_cons, List.take_nil]
      decide +kernel
  obtain ⟨hreplies, ⟨hbytes, -⟩, -⟩ := hcalls pairCalls hraw hlength
  exact ⟨_, hlayOut, hreplies.trans rfl, hbytes.trans rfl⟩

end RecordIndex
