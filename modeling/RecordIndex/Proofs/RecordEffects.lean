import Mathlib.Logic.Function.Basic
import RecordIndex.Proofs.Codec.RecordSlot
import RecordIndex.Proofs.Effects

/-!
# What writing records does

The first record that is added fixes the size of the slots, and every later one must have that size.

* `RecordFile.add_cases`: adding a record takes the next slot, unless the file is too long.
* `Tree.yields_storeRecord`, `Tree.turns_rewriteRecord` and `Tree.turns_eraseRecord` say the same
  about what the tree shows.
* `Tree.refuses_storeLarge`: the first record must not be too large.
-/

namespace RecordIndex

namespace RecordFile

variable {f g : SlotFile} {r : Record}

theorem record?_of_holds {l : SlotLayout} {head : Bytes} {blocks : List Bytes}
    (h : f.Holds l head blocks) (id : RecordId) :
    record? f id = (blocks[id.number.toNat]?).bind fun b => (Record.decode b).toOption := by
  rw [record?, h.block?_eq]

theorem record?_set {l : SlotLayout} {head : Bytes} {blocks : List Bytes} {id : RecordId}
    {b : Bytes} (hf : f.Holds l head blocks) (hid : id.number.toNat < blocks.length)
    (hg : g.Holds l head (blocks.set id.number.toNat b)) (id' : RecordId) :
    record? g id' = if id' = id then (Record.decode b).toOption else record? f id' := by
  rw [record?_of_holds hg, record?_of_holds hf]
  split_ifs with he
  · rw [he, List.getElem?_set_self hid, Option.bind_some]
  · have hne : id.number.toNat ≠ id'.number.toNat := fun h =>
      he (congrArg RecordId.mk (UInt64.toNat_inj.1 h.symm))
    rw [List.getElem?_set_ne hne]

theorem record?_append {l : SlotLayout} {head : Bytes} {blocks : List Bytes} {b : Bytes}
    (hf : f.Holds l head blocks) (hg : g.Holds l head (blocks ++ [b])) (id : RecordId) :
    record? g id = if id = ⟨f.count⟩ then (Record.decode b).toOption else record? f id := by
  rw [record?_of_holds hg, record?_of_holds hf]
  split_ifs with he
  · rw [he, hf.count_eq, List.getElem?_concat_length, Option.bind_some]
  · have hne : id.number.toNat ≠ blocks.length := fun h =>
      he (congrArg RecordId.mk (UInt64.toNat_inj.1 (h.trans hf.count_eq.symm)))
    rcases Nat.lt_or_gt_of_ne hne with hlt | hgt
    · rw [List.getElem?_append_left hlt]
    · rw [List.getElem?_eq_none (Nat.le_of_lt hgt), List.getElem?_eq_none]
      rw [List.length_append]
      exact hgt

theorem toNat_ofNat_size {n : Nat} (h : n ≤ maxRecordSize) : (UInt64.ofNat n).toNat = n := by
  rw [UInt64.toNat_ofNat', Nat.mod_eq_of_lt]
  exact Nat.lt_of_le_of_lt h (by decide)

/-- Fixing the size of the records in an empty file writes the header of the file. -/
theorem exists_fixSize {n : Nat} (hempty : f.bytes.contents = []) (hpos : 0 < n)
    (hle : n ≤ maxRecordSize) :
    ∃ g, fixSize n f = .ok () g ∧
      g.Holds (layout (UInt64.ofNat n)) (encodeHeader n) [] ∧ g.home = f.home ∧ g.count = 0 ∧
      g.counters = f.counters := by
  have hsize := toNat_ofNat_size hle
  -- the file is empty, so that the header is all that is in it then
  have hne : encodeHeader n ≠ [] := by
    intro h
    have := congrArg List.length h
    simp [encodeHeader, recordHeaderBytes] at this
  have hcontents : (f.bytes.write 0 (encodeHeader n)).contents = encodeHeader n := by
    rw [FileBytes.contents_write hne, hempty]
    simp [zeros]
  have hlen : (f.bytes.write 0 (encodeHeader n)).length = recordHeaderBytes := by
    rw [FileBytes.length_eq, hcontents, encodeHeader, BigEndian.length_encode]
  refine ⟨{ f with
    bytes := f.bytes.write 0 (encodeHeader n)
    layout := some (layout (UInt64.ofNat n))
    count := 0 }, ?_, ?_, rfl, rfl, rfl⟩
  · have hzero : UInt64.ofNat n ≠ 0 := by
      intro h
      have := congrArg UInt64.toNat h
      rw [hsize] at this
      exact absurd this (Nat.ne_of_gt hpos)
    have hstart : (layout (UInt64.ofNat n)).dataStart.toNat = recordHeaderBytes := rfl
    have hzero' : (layout (UInt64.ofNat n)).slotSize ≠ 0 := hzero
    rw [fixSize, if_neg (Nat.not_lt.2 hle), if_neg (Nat.ne_of_gt hpos)]
    refine Action.bind_eq_ok_iff.2
      ⟨(), { f with bytes := f.bytes.write 0 (encodeHeader n) }, ?_, ?_⟩
    · rw [SlotFile.writeBytes, if_neg (by decide)]
      rfl
    · rw [SlotFile.layOut, if_neg hzero', Action.run_bind, Action.run_get]
      simp only [hlen, hstart, Nat.sub_self, Nat.zero_mod, ne_eq, not_true_eq_false, if_false,
        Nat.zero_div, Action.run_set]
      rfl
  · refine ⟨rfl, by simpa using hcontents, ?_, by simp, rfl, ?_, ?_, ?_⟩
    · rw [encodeHeader, BigEndian.length_encode]
      rfl
    · show 0 < (UInt64.ofNat n).toNat
      omega
    · show (UInt64.ofNat n).toNat < 2 ^ 62
      rw [hsize]
      exact Nat.lt_of_le_of_lt hle (by decide)
    · show recordHeaderBytes + 0 * _ < 2 ^ 63 + _
      rw [Nat.zero_mul, recordHeaderBytes]
      omega

theorem size_pos (r : Record) : 0 < r.size := by
  rw [Record.size, Nat.add_assoc, Nat.add_comm]
  exact Nat.succ_pos _

/-- The layout is that of records of a certain size, and the next slot is the one behind the last
record. -/
theorem append_cases {n : Nat} {blocks : List Bytes} {b : Bytes} (hpos : 0 < n)
    (hle : n ≤ maxRecordSize) (hf : f.Holds (layout (UInt64.ofNat n)) (encodeHeader n) blocks)
    (hb : b.length = n) :
    (∃ g, SlotFile.append b f = .ok f.count g ∧ InStep g ∧
      g.count.toNat = f.count.toNat + 1 ∧ g.slotSize?.map (·.toNat) = some n ∧ g.home = f.home ∧
      ∀ id, record? g id = if id = ⟨f.count⟩ then (Record.decode b).toOption else record? f id) ∨
    SlotFile.append b f = .error (.error (.io .invalidInput)) f ∧
      2 ^ 63 ≤ recordHeaderBytes + blocks.length * n := by
  have hsize := toNat_ofNat_size hle
  rcases hf.append (b := b) (hb.trans hsize.symm) with ⟨g, hx, hg, hhome⟩ | ⟨hx, hlong⟩
  · refine .inl ⟨g, hx, .set hpos hle hg, ?_, ?_, hhome, record?_append hf hg⟩
    · rw [hg.count_eq, hf.count_eq, List.length_append]
      rfl
    · rw [SlotFile.slotSize?, hg.layout_eq]
      exact congrArg some hsize
  · refine .inr ⟨hx, ?_⟩
    have hlong : 2 ^ 63 ≤ recordHeaderBytes + blocks.length * (UInt64.ofNat n).toNat := hlong
    rw [hsize] at hlong
    exact hlong

/-- Adding a record that has an encoded form, the size of the other records if there are any, and no
more than the largest size: it takes the next slot, unless the file is too long. -/
theorem add_cases (hf : InStep f) (hr : r.validate = .ok ())
    (hsize : ∀ s, f.slotSize?.map (·.toNat) = some s → s = r.size) (hle : r.size ≤ maxRecordSize) :
    (∃ g, add r f = .ok ⟨f.count⟩ g ∧ InStep g ∧ g.count.toNat = f.count.toNat + 1 ∧
      g.slotSize?.map (·.toNat) = some r.size ∧ g.home = f.home ∧
      ∀ id, record? g id = if id = ⟨f.count⟩ then some r else record? f id) ∨
    add r f = .error (.error (.io .invalidInput)) f ∧
      f.slotSize?.map (·.toNat) = some r.size ∧
        2 ^ 63 ≤ recordHeaderBytes + f.count.toNat * r.size := by
  obtain ⟨bs, hbs, hlen, hdecode⟩ := r.exists_encode hr
  rw [← toOption_eq_some_iff] at hdecode
  rw [← hdecode]
  cases hf with
  | unset hlayout hempty hcount =>
    obtain ⟨f₁, hfix, hf₁, hhome₁, hcount₁, -⟩ := exists_fixSize hempty (size_pos r) hle
    have hrecord : ∀ id, record? f₁ id = record? f id := by
      intro id
      rw [record?_of_holds hf₁, record?, SlotFile.block?, hlayout]
      rfl
    rcases append_cases (size_pos r) hle hf₁ hlen with ⟨g, hx, hg, hn, hs, hhome, hrec⟩ | ⟨-, hlong⟩
    · rw [hcount₁] at hx hn hrec
      refine .inl ⟨g, ?_, hg, by rw [hn, hcount], hs, hhome.trans hhome₁, ?_⟩
      · simp [add, hbs, requireSize, appendBlock, Action.run_bind, SlotFile.slotSize?, hlayout,
          hlen,
          hfix, Action.run_map, hx, hcount]
      · intro id
        rw [hrec, hrecord, hcount]
    · rw [List.length_nil, Nat.zero_mul, recordHeaderBytes] at hlong
      omega
  | set hpos hle' hholds =>
    rename_i n blocks
    have hn : n = r.size := by
      refine hsize n ?_
      rw [SlotFile.slotSize?, hholds.layout_eq]
      exact congrArg some (toNat_ofNat_size hle')
    subst hn
    have hrequire : requireSize bs.length f = .ok () f := by
      have hto : (layout (UInt64.ofNat r.size)).slotSize.toNat = bs.length :=
        (toNat_ofNat_size hle').trans hlen.symm
      simp [requireSize, Action.run_bind, SlotFile.slotSize?, hholds.layout_eq, hto]
    rcases append_cases hpos hle' hholds hlen with ⟨g, hx, hg, hn, hs, hhome, hrec⟩ | ⟨hx, hlong⟩
    · refine .inl ⟨g, ?_, hg, hn, hs, hhome, hrec⟩
      simp [add, hbs, appendBlock, Action.run_bind, hrequire, hholds.layout_eq, Action.run_map, hx]
    · refine .inr ⟨?_, ?_, by rwa [hholds.count_eq]⟩
      · simp [add, hbs, appendBlock, Action.run_bind, hrequire, hholds.layout_eq, Action.run_map,
          hx]
      · rw [SlotFile.slotSize?, hholds.layout_eq]
        exact congrArg some (toNat_ofNat_size hle')

end RecordFile

namespace Tree

variable {v : View} {r : Record}

/-- A tree whose record file has changed. -/
theorem view_setRecords {t : Tree} {g : SlotFile} {v' : View}
    (hhome : g.home = t.store.records.home)
    (hhome' : v'.home = t.view.home) (hrepair : v'.needsRepair = t.needsRepair)
    (htype : v'.keyType = t.keyType) (hroot : v'.root = t.root)
    (hheader : v'.header = t.view.header)
    (hpages : v'.pageCount = t.view.pageCount) (hnode : v'.node = t.view.node)
    (hsize : g.slotSize?.map (·.toNat) = v'.recordSize) (hcount : g.count.toNat = v'.recordCount)
    (hrecord : ∀ id, RecordFile.record? g id = v'.record id) :
    ({ t with store := { t.store with records := g } } : Tree).view = v' := by
  obtain ⟨home, needsRepair, keyType, root, header, pageCount, node, recordSize, recordCount,
    record⟩ := v'
  dsimp only at *
  subst hhome' hrepair htype hroot hheader hpages hnode hsize hcount
  unfold view
  simp only [hhome]
  congr 1
  exact funext hrecord

/-- Adding a record. -/
theorem yields_storeRecord (hr : r.validate = .ok ())
    (hsize : ∀ s, v.recordSize = some s → s = r.size)
    (hle : r.size ≤ RecordFile.maxRecordSize) :
    Yields (onRecords (RecordFile.add r)) v
      (fun id v' => id = v.nextRecord ∧ id.number.toNat = v.recordCount ∧ v' = v.addRecord r)
      (fun v' => v' = v ∧ v.Full) := by
  intro t ht
  obtain ⟨⟨hi, hf⟩, rfl⟩ := ht
  rcases RecordFile.add_cases hf hr hsize hle with
    ⟨g, hx, hg, hn, hs, hhome, hrec⟩ | ⟨hx, hold, hlong⟩
  · have hnext : t.view.nextRecord = ⟨t.store.records.count⟩ := by
      show RecordId.mk (UInt64.ofNat t.store.records.count.toNat) = _
      rw [UInt64.ofNat_toNat]
    refine .inl ⟨⟨t.store.records.count⟩, { t with store := { t.store with records := g } },
      t.view.addRecord r, onRecords_eq_ok_iff.2 ⟨g, hx, rfl⟩, ⟨⟨hi, hg⟩, ?_⟩, hnext.symm, rfl, rfl⟩
    refine view_setRecords hhome rfl rfl rfl rfl rfl rfl rfl hs hn fun id => ?_
    rw [hrec, View.addRecord, hnext]
    exact (Function.update_apply ..).symm
  · refine .inr ⟨.invalidInput, t, t.view, ?_, ⟨⟨hi, hf⟩, rfl⟩, rfl, .inr ⟨_, hold, hlong⟩⟩
    unfold onRecords onStore Store.onRecords
    simp only [Action.run_within, hx]

/-- The first record must not be too large. -/
theorem refuses_storeLarge (hr : r.validate = .ok ()) (hsize : v.recordSize = none)
    (hlt : RecordFile.maxRecordSize < r.size) :
    Answers (onRecords (RecordFile.add r)) v
      (.error (.error (.encoding (.largeRecord r.size)))) := by
  rintro t rfl
  obtain ⟨bs, hbs, hlen, -⟩ := r.exists_encode hr
  have hlayout : t.store.records.layout = none := by
    have hs : t.store.records.slotSize?.map (·.toNat) = none := hsize
    rwa [Option.map_eq_none_iff, SlotFile.slotSize?, Option.map_eq_none_iff] at hs
  have hx : RecordFile.add r t.store.records =
      .error (.error (.encoding (.largeRecord r.size))) t.store.records := by
    simp [RecordFile.add, hbs, RecordFile.requireSize, RecordFile.appendBlock, RecordFile.fixSize,
      Action.run_bind, SlotFile.slotSize?, hlayout, hlen, hlt]
  refine ⟨0, 0, ?_, ?_⟩ <;> unfold onRecords onStore Store.onRecords <;>
    simp [Action.run_within, hx, Action.answer, Action.finalState]

/-- An action on the record file that writes one slot. -/
theorem turns_onRecords {x : SlotAction Unit} {id : RecordId} {o : Option Record}
    (hid : id.number.toNat < v.recordCount)
    (hx : ∀ f (n : Nat) blocks, 0 < n → n ≤ RecordFile.maxRecordSize →
      f.Holds (RecordFile.layout (UInt64.ofNat n)) (RecordFile.encodeHeader n) blocks →
      v.recordSize = some n → id.number.toNat < blocks.length →
      ∃ b g, (Record.decode b).toOption = o ∧ x f = .ok () g ∧
        g.Holds (RecordFile.layout (UInt64.ofNat n)) (RecordFile.encodeHeader n)
          (blocks.set id.number.toNat b) ∧ g.home = f.home) :
    Turns (onRecords x) v () (v.setRecord id o) := by
  rintro t ⟨⟨hi, hf⟩, rfl⟩
  cases hf with
  | unset hlayout hempty hcount =>
    have hzero : t.store.records.count.toNat = 0 := by rw [hcount]; rfl
    have hlt : id.number.toNat < t.store.records.count.toNat := hid
    omega
  | set hpos hle hholds =>
    rename_i n blocks
    have hlt : id.number.toNat < blocks.length := by
      rw [← hholds.count_eq]
      exact hid
    have hsize : t.store.records.slotSize?.map (·.toNat) = some n := by
      rw [SlotFile.slotSize?, hholds.layout_eq]
      exact congrArg some (RecordFile.toNat_ofNat_size hle)
    obtain ⟨b, g, rfl, hxg, hg, hhome⟩ := hx _ n blocks hpos hle hholds hsize hlt
    have hcount : g.count.toNat = t.store.records.count.toNat := by
      rw [hg.count_eq, hholds.count_eq, List.length_set]
    have hsize' : g.slotSize?.map (·.toNat) = t.store.records.slotSize?.map (·.toNat) := by
      rw [SlotFile.slotSize?, SlotFile.slotSize?, hg.layout_eq, hholds.layout_eq]
    refine ⟨_, onRecords_eq_ok_iff.2 ⟨g, hxg, rfl⟩, ⟨hi, .set hpos hle hg⟩, ?_⟩
    refine view_setRecords hhome rfl rfl rfl rfl rfl rfl rfl hsize' hcount fun id' => ?_
    rw [RecordFile.record?_set hholds hlt hg]
    exact (Function.update_apply ..).symm

/-- Writing a record over another one. -/
theorem turns_rewriteRecord {id : RecordId} (hid : id.number.toNat < v.recordCount)
    (hr : r.validate = .ok ()) (hsize : v.recordSize = some r.size) :
    Turns (onRecords (RecordFile.replace id r)) v () (v.setRecord id (some r)) := by
  obtain ⟨bs, hbs, hlen, hdecode⟩ := r.exists_encode hr
  refine turns_onRecords hid fun f n blocks _ hle hf hn hlt => ?_
  have hslot : bs.length = (RecordFile.layout (UInt64.ofNat n)).slotSize.toNat := by
    rw [hlen, ← Option.some.inj (hn.symm.trans hsize)]
    exact (RecordFile.toNat_ofNat_size hle).symm
  obtain ⟨g, hx, hg, hhome⟩ := hf.write hlt hslot
  refine ⟨bs, g, toOption_eq_some_iff.2 hdecode, ?_, hg, hhome⟩
  rw [RecordFile.replace, hbs]
  exact hx

theorem decode_zeros {n : Nat} (hn : 0 < n) : (Record.decode (zeros n)).toOption = none := by
  obtain ⟨m, rfl⟩ := Nat.exists_eq_succ_of_ne_zero (Nat.ne_of_gt hn)
  have hz : zeros (m + 1) = 0 :: zeros m := rfl
  have : Record.decode (zeros (m + 1)) = .error (.corrupted (.fieldType 0)) := by
    rw [Record.decode, hz]
    rfl
  rw [this]
  rfl

/-- Filling the slot of a record with zeros. -/
theorem turns_eraseRecord {id : RecordId} (hid : id.number.toNat < v.recordCount) :
    Turns (onRecords (RecordFile.erase id)) v () (v.setRecord id none) := by
  refine turns_onRecords hid fun f n blocks hpos hle hf _ hlt => ?_
  obtain ⟨g, hx, hg, hhome⟩ := hf.zero hlt
  refine ⟨_, g, decode_zeros ?_, hx, hg, hhome⟩
  rw [RecordFile.layout, RecordFile.toNat_ofNat_size hle]
  exact hpos

end Tree
end RecordIndex
