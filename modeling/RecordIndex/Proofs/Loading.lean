import Mathlib
import RecordIndex.Proofs.Counters
import RecordIndex.Proofs.Files
import RecordIndex.Proofs.Opening
import RecordIndex.Proofs.Writes

/-!
# Opening trees

What is known of a tree that is opened: whatever the files hold, its handles are in order
(`Tree.opened_of_load`), and there is a header page (`Tree.pageCount_pos_of_load`); if no file is too
long, the handles know what the files say (`Tree.inStep_of_load`).

All that an open tree knows can be found out from its files again, but for the counters.

* `Disk.Serves d home`: the paths of the configuration lead to the two files.
* `Disk.Keeps d t`: what is on the disk is what the tree works on, as it is when the tree is saved
  (`Disk.Serves.keeps_save`).
* `Disk.Keeps.openAt_eq` and `Tree.exists_load`: then the store is opened as it is, and the tree too if
  its header page names its root. `Tree.exists_load_saved` puts this together for the new store.
-/

namespace RecordIndex

/-! ### Handles of a tree that is opened -/

/-- A record file whose handle knows of no size is empty. -/
theorem RecordFile.contents_eq_nil_of_recallLayout {f g : SlotFile}
    (h : recallLayout f = .ok () g) (hlayout : g.layout = none) : g.bytes.contents = [] := by
  obtain ⟨hempty, rfl⟩ | ⟨n, -, -, -, -, hlay⟩ := recallLayout_cases h
  · exact hempty
  · rw [(SlotFile.layOut_eq_ok_iff.1 hlay).2.2] at hlayout
    cases hlayout

namespace Tree

variable {s s' : Store} {t : Tree}

/-- The handles of a tree that is opened are in order, whatever the files hold. -/
theorem opened_of_load {config : StoreConfig} {d d' : Disk} (h : Store.openAt config d = .ok s d')
    (hindex : s.index.bytes.contents.length < 2 ^ 63) (ht : load s = .ok t s') : t.Opened := by
  obtain ⟨-, d₁, hi, hr⟩ := Store.openAt_eq_ok_iff.1 h
  obtain ⟨file, -, hlay⟩ := PageFile.openAt_eq_ok_iff.1 hi
  obtain ⟨file', -, hrecall⟩ := RecordFile.openAt_eq_ok_iff.1 hr
  obtain ⟨-, header, -, rfl, rfl⟩ := load_eq_ok_iff.1 ht
  obtain ⟨-, -, heq⟩ := SlotFile.layOut_eq_ok_iff.1 hlay
  refine ⟨congrArg SlotFile.layout heq, ?_, RecordFile.contents_eq_nil_of_recallLayout hrecall⟩
  have hbytes : s.index.bytes = d₁.bytes file := by rw [heq]; rfl
  have hcount : s.index.count = UInt64.ofNat ((d₁.bytes file).length / pageSize) := by
    rw [heq]
    rfl
  rw [hbytes, ← FileBytes.length_eq] at hindex
  calc s.index.count.toNat * pageSize
      ≤ (d₁.bytes file).length / pageSize * pageSize := by
        rw [hcount]
        exact Nat.mul_le_mul_right _ (Nat.mod_le _ _)
    _ ≤ (d₁.bytes file).length := Nat.div_mul_le_self _ _
    _ ≤ 2 ^ 63 := Nat.le_of_lt hindex

/-- A tree that is opened has its header page. -/
theorem pageCount_pos_of_load (h : load s = .ok t s') : 0 < t.pageCount.toNat := by
  obtain ⟨hempty, header, -, rfl, rfl⟩ := load_eq_ok_iff.1 h
  have hne : s.index.count ≠ 0 := fun h0 => by simp [Store.isEmpty, h0] at hempty
  exact Nat.pos_of_ne_zero fun h0 => hne (UInt64.toNat_inj.1 h0)

end Tree

/-! ### A new store -/

/-- A store that has just been opened on an empty disk. -/
def newStore : Store where
  config := ⟨"i", "r"⟩
  index := ⟨"i", ⟨0⟩, .empty, some PageFile.layout, 0, .zero⟩
  records := ⟨"r", ⟨1⟩, .empty, none, 0, .zero⟩

/-- The configuration of the new store and its files. -/
def newHome : Home := ⟨newStore.config, newStore.index.home, newStore.records.home⟩

theorem exists_openAt_newStore : ∃ disk, Store.openAt newStore.config .empty = .ok newStore disk :=
  ⟨_, by cbv⟩

theorem blank_newStore : newStore.Blank := by
  obtain ⟨disk, hopen⟩ := exists_openAt_newStore
  exact Store.blank_of_openAt hopen rfl rfl

/-! ### The files on the disk -/

/-- The paths of the configuration lead to the two files, and these are different. -/
structure Disk.Serves (d : Disk) (home : Home) : Prop where
  index_opens : openFile home.config.indexPath d = .ok home.index.2 d
  records_opens : openFile home.config.recordPath d = .ok home.records.2 d
  index_path : home.index.1 = home.config.indexPath
  records_path : home.records.1 = home.config.recordPath
  index_lt : home.index.2.number < d.files.length
  records_lt : home.records.2.number < d.files.length
  files_ne : home.index.2 ≠ home.records.2

namespace Disk.Serves

variable {d : Disk} {home : Home}

theorem setBytes (h : d.Serves home) (id : FileId) (bytes : FileBytes) :
    (d.setBytes id bytes).Serves home where
  index_opens := openFile_again h.index_opens (extends_setBytes d id bytes)
  records_opens := openFile_again h.records_opens (extends_setBytes d id bytes)
  index_path := h.index_path
  records_path := h.records_path
  index_lt := by
    show _ < (d.files.set _ _).length
    rw [List.length_set]
    exact h.index_lt
  records_lt := by
    show _ < (d.files.set _ _).length
    rw [List.length_set]
    exact h.records_lt
  files_ne := h.files_ne

end Disk.Serves

/-- The files of a store that has been opened. -/
theorem Disk.serves_of_openAt {config : StoreConfig} {store : Store} {d d' : Disk}
    (h : Store.openAt config d = .ok store d') (hd : d.Sound)
    (hfiles : store.index.file ≠ store.records.file) :
    d'.Serves ⟨store.config, store.index.home, store.records.home⟩ := by
  obtain ⟨rfl, d₁, hindex, hrecords⟩ := Store.openAt_eq_ok_iff.1 h
  obtain ⟨file, hfile, hlay⟩ := PageFile.openAt_eq_ok_iff.1 hindex
  obtain ⟨file', hfile', hrecall⟩ := RecordFile.openAt_eq_ok_iff.1 hrecords
  have hhome : store.index.home = (store.config.indexPath, file) := by
    rw [(SlotFile.layOut_eq_ok_iff.1 hlay).2.2]
    rfl
  have hhome' : store.records.home = (store.config.recordPath, file') := by
    obtain ⟨l, n, heq⟩ := RecordFile.exists_of_recallLayout hrecall
    rw [heq]
    rfl
  have hne : store.index.home.2 ≠ store.records.home.2 := hfiles
  obtain ⟨hd₁, hlt⟩ := hd.openFile hfile
  rw [hhome, hhome'] at hne ⊢
  exact ⟨Disk.openFile_again hfile (Disk.extends_openFile hfile'),
    Disk.openFile_again hfile' (Disk.Extends.refl _), rfl, rfl,
    Nat.lt_of_lt_of_le hlt (Disk.length_files_le_of_openFile hfile'), (hd₁.openFile hfile').2, hne⟩

/-- The files of the new store. -/
theorem exists_serves_newStore : ∃ d : Disk, d.Serves newHome := by
  obtain ⟨d, hopen⟩ := exists_openAt_newStore
  exact ⟨d, Disk.serves_of_openAt hopen Disk.sound_empty (by decide)⟩

/-- What is on the disk is what the tree works on. -/
structure Disk.Keeps (d : Disk) (t : Tree) : Prop where
  serves : d.Serves t.view.home
  index_bytes : d.bytes t.store.index.file = t.store.index.bytes
  records_bytes : d.bytes t.store.records.file = t.store.records.bytes

/-- Saving a tree. -/
theorem Disk.Serves.keeps_save {d : Disk} {t : Tree} (h : d.Serves t.view.home) :
    (t.save d).Keeps t := by
  have hindex := h.setBytes t.store.index.file t.store.index.bytes
  refine ⟨hindex.setBytes _ _, ?_, Disk.bytes_setBytes hindex.records_lt _⟩
  exact (Disk.bytes_setBytes_of_ne h.files_ne.symm _).trans (Disk.bytes_setBytes h.index_lt _)

namespace Disk.Keeps

variable {d : Disk} {t : Tree}

theorem reload_eq (h : d.Keeps t) : t.reload d = t := by
  rw [Tree.reload, Store.reload, SlotFile.reload, SlotFile.reload, h.index_bytes, h.records_bytes]

theorem save_eq (h : d.Keeps t) : t.save d = d := by
  have hindex : d.setBytes t.store.index.file t.store.index.bytes = d := by
    rw [← h.index_bytes]
    exact Disk.setBytes_self h.serves.index_lt
  have hrecords : d.setBytes t.store.records.file t.store.records.bytes = d := by
    rw [← h.records_bytes]
    exact Disk.setBytes_self h.serves.records_lt
  rw [Tree.save, Store.save, SlotFile.save, SlotFile.save, hindex, hrecords]

end Disk.Keeps

/-! ### Opening again -/

theorem SlotFile.resetCounters_eq {f : SlotFile} {path : String} {bytes : FileBytes}
    {layout : Option SlotLayout} (hpath : f.path = path) (hbytes : bytes = f.bytes)
    (hlayout : f.layout = layout) :
    { ofBytes path f.file bytes with layout := layout, count := f.count } = f.resetCounters := by
  subst hpath hbytes hlayout
  rfl

/-- A store whose handles know what the files say is opened as it is, with its counters at zero. -/
theorem Disk.Keeps.openAt_eq {d : Disk} {t : Tree} (h : d.Keeps t) (hstep : t.InStep) :
    Store.openAt t.store.config d = .ok t.store.resetCounters d := by
  obtain ⟨⟨blocks, hindex⟩, hrecords⟩ := hstep
  refine Store.openAt_eq_ok_iff.2 ⟨rfl, d, PageFile.openAt_eq_ok_iff.2
    ⟨_, h.serves.index_opens, ?_⟩, RecordFile.openAt_eq_ok_iff.2 ⟨_, h.serves.records_opens, ?_⟩⟩
  · rw [hindex.layOut (congrArg _ h.index_bytes)]
    exact congrArg _
      (SlotFile.resetCounters_eq h.serves.index_path h.index_bytes hindex.layout_eq)
  · rw [hrecords.recallLayout (congrArg _ h.records_bytes) rfl rfl]
    exact congrArg _ (SlotFile.resetCounters_eq h.serves.records_path h.records_bytes rfl)

namespace Tree

variable {t : Tree}

/-- A store with a header page has pages. -/
theorem isEmpty_of_header {header : HeaderPage} (h : t.view.header = some header) :
    t.store.isEmpty = false := by
  obtain ⟨page, hpage, -⟩ := Option.bind_eq_some_iff.1 h
  obtain ⟨b, hb, -⟩ := Option.bind_eq_some_iff.1 hpage
  have hlt := SlotFile.lt_count_of_block? hb
  refine beq_eq_false_iff_ne.2 fun hzero => ?_
  rw [hzero] at hlt
  exact UInt64.not_lt_zero hlt

/-- A tree whose header page names its root is opened as it was, with some slots more or less
counted. -/
theorem exists_load (hheader : t.view.header = some ⟨t.keyType, t.root⟩)
    (hintact : t.needsRepair = false) :
    ∃ n store, load t.store.resetCounters = .ok (t.tally n) store := by
  obtain ⟨i, hi⟩ := t.store.index.counters.exists_add (SlotCounters.zero.addReads 1)
  obtain ⟨j, hj⟩ := t.store.records.counters.exists_add .zero
  refine ⟨⟨i, j⟩, _, load_eq_ok_iff.2 ⟨isEmpty_of_header hheader, _, hheader, rfl, ?_⟩⟩
  rw [tally, Store.tally, SlotFile.tally, SlotFile.tally, hi, hj, hintact]
  rfl

/-- A tree on the files of the new store is saved and opened again. -/
theorem exists_load_saved (hstep : t.InStep) (hshort : t.store.Short) (hhome : t.view.home = newHome)
    (hheader : t.view.header = some ⟨t.keyType, t.root⟩) (hintact : t.needsRepair = false) :
    ∃ (disk : Disk) (s s' : Store) (n : StoreCounters),
      Store.openAt newStore.config disk = .ok s disk ∧ load s = .ok (t.tally n) s' ∧
        (t.tally n).InStep ∧ (t.tally n).Opened := by
  obtain ⟨disk, hserves⟩ := exists_serves_newStore
  rw [← hhome] at hserves
  have hopen := hserves.keeps_save.openAt_eq hstep
  obtain ⟨n, store, hload⟩ := exists_load hheader hintact
  have hconfig : t.store.config = newStore.config := congrArg Home.config hhome
  exact ⟨t.save disk, _, store, n, hconfig ▸ hopen, hload,
    inStep_of_load hopen ⟨hshort.index, hshort.records⟩ hload,
    opened_of_load hopen hshort.index hload⟩

end Tree

end RecordIndex
