import RecordIndex.Proofs.Planting
import RecordIndex.Proofs.RecordEffects

/-!
# Opening files

Opening a store counts the slots of its files and recalls the size of the records. It finds out all
that the handles know, so that every opened tree is in step.

* `SlotFile.holds_of_layOut` and `SlotFile.Holds.layOut`: a file is laid out exactly as the handles
  that agree with it say.
* `RecordFile.recallLayout_cases`: recalling the size of the records succeeds in two ways only.
* `RecordFile.inStep_of_recallLayout` and `RecordFile.InStep.recallLayout`: so with its records.
* `Store.Short`: no file is longer than files can be. `Tree.InStep.short_iff` and `Tree.InStep.short`
  say what this has to do with the numbers of pages and of records.
* `Store.inStep_of_openAt` and `Store.blank_of_openAt`: what is known of a store that is opened.
-/

namespace RecordIndex

namespace SlotFile

variable {f g : SlotFile} {l : SlotLayout} {head : Bytes} {blocks : List Bytes}

theorem openAt_eq_ok_iff {path : String} {d d' : Disk} : openAt path d = .ok f d' ↔
    ∃ file, Disk.openFile path d = .ok file d' ∧ f = ofBytes path file (d'.bytes file) := by
  rw [openAt, Action.bind_eq_ok_iff]
  simp only [Action.run_bind, Action.run_get, Action.pure_eq_ok_iff]
  constructor
  · rintro ⟨file, d₁, hfile, rfl, rfl⟩
    exact ⟨file, hfile, rfl⟩
  · rintro ⟨file, hfile, rfl⟩
    exact ⟨file, d', hfile, rfl, rfl⟩

theorem layOut_eq_ok_iff : layOut l f = .ok () g ↔ l.slotSize ≠ 0 ∧
    (f.bytes.length - l.dataStart.toNat) % l.slotSize.toNat = 0 ∧
    g = { f with
      layout := some l
      count := UInt64.ofNat ((f.bytes.length - l.dataStart.toNat) / l.slotSize.toNat) } := by
  unfold layOut
  split_ifs with hzero
  · simp [hzero]
  · rw [Action.run_bind, Action.run_get]
    dsimp only
    split_ifs with hpart
    · simp [hpart]
    · rw [ne_eq, not_not] at hpart
      simp only [Action.run_set, EStateM.Result.ok.injEq, true_and, ne_eq, hzero,
        not_false_eq_true, hpart]
      exact eq_comm

/-- Opening a file and finding something out about it. -/
theorem openAt_bind_eq_ok_iff {path : String} {d d' : Disk} {x : SlotAction Unit} :
    (do
      let f ← openAt path
      match x f with
      | .ok _ f => return f
      | .error e _ => throw e : Action Disk SlotFile) d = .ok g d' ↔
    ∃ file, Disk.openFile path d = .ok file d' ∧
      x (ofBytes path file (d'.bytes file)) = .ok () g := by
  rw [Action.bind_eq_ok_iff]
  simp only [openAt_eq_ok_iff]
  constructor
  · rintro ⟨f, d₁, ⟨file, hfile, rfl⟩, h⟩
    cases hx : x (ofBytes path file (d₁.bytes file)) with
    | error e f =>
      simp only [hx] at h
      cases h
    | ok u f =>
      simp only [hx] at h
      cases h
      exact ⟨file, hfile, hx⟩
  · rintro ⟨file, hfile, hx⟩
    refine ⟨_, _, ⟨file, hfile, rfl⟩, ?_⟩
    simp only [hx]
    rfl

/-- A file whose slots have been laid out agrees with its handle. -/
theorem holds_of_layOut (h : layOut l f = .ok () g)
    (hhead : l.dataStart.toNat ≤ f.bytes.contents.length) (hsize : l.slotSize.toNat < 2 ^ 62)
    (hlt : f.bytes.contents.length < 2 ^ 63) :
    ∃ blocks, g.Holds l (f.bytes.contents.take l.dataStart.toNat) blocks := by
  obtain ⟨hzero, hpart, rfl⟩ := layOut_eq_ok_iff.1 h
  have hpos : 0 < l.slotSize.toNat :=
    Nat.pos_of_ne_zero fun hz => hzero (UInt64.toNat_inj.1 hz)
  rw [FileBytes.length_eq] at hpart ⊢
  have hmul := Nat.div_mul_cancel (Nat.dvd_of_mod_eq_zero hpart)
  have hlen : (f.bytes.contents.drop l.dataStart.toNat).length =
      (f.bytes.contents.length - l.dataStart.toNat) / l.slotSize.toNat * l.slotSize.toNat := by
    rw [List.length_drop, hmul]
  obtain ⟨blocks, hcount, hblock, heq⟩ := exists_blocks hlen
  have hle : (f.bytes.contents.length - l.dataStart.toNat) / l.slotSize.toNat ≤
      f.bytes.contents.length - l.dataStart.toNat := Nat.div_le_self _ _
  refine ⟨blocks, rfl, ?_, ?_, hblock, ?_, hpos, hsize, ?_⟩
  · rw [← heq, List.take_append_drop]
  · rw [List.length_take, Nat.min_eq_left hhead]
  · rw [hcount, UInt64.toNat_ofNat', Nat.mod_eq_of_lt]
    omega
  · rw [hcount, hmul]
    omega

/-- A file is laid out as the handles that agree with it say. -/
theorem Holds.layOut (h : f.Holds l head blocks) (hg : g.bytes.contents = f.bytes.contents) :
    layOut l g = .ok () { g with layout := some l, count := f.count } := by
  have hlen := h.length_contents
  refine layOut_eq_ok_iff.2 ⟨fun hz => ?_, ?_, ?_⟩
  · have := h.size_pos
    rw [hz] at this
    exact Nat.lt_irrefl 0 this
  · rw [FileBytes.length_eq, hg, hlen, Nat.add_sub_cancel_left, Nat.mul_mod_left]
  · rw [FileBytes.length_eq, hg, hlen, Nat.add_sub_cancel_left, Nat.mul_div_cancel _ h.size_pos,
      ← h.count_eq, UInt64.ofNat_toNat]

end SlotFile

namespace RecordFile

variable {f g : SlotFile}

/-- The size that a record file starts with, as a signed word. -/
theorem toInt_header {n : Nat} (h : n < 2 ^ 32) : (UInt32.ofNat n).toInt32.toInt =
    if n < 2 ^ 31 then (n : Int) else (n : Int) - 0x100000000 := by
  show (BitVec.ofNat 32 n).toInt = _
  rw [BitVec.toInt_eq_toNat_cond, BitVec.toNat_ofNat, Nat.mod_eq_of_lt h]
  split_ifs <;> omega

/-- The size stands in front of the records. -/
theorem recallLayout_eq (h : recordHeaderBytes ≤ f.bytes.contents.length) {n : Nat}
    (hn : BigEndian.decode (f.bytes.contents.take recordHeaderBytes) = n) :
    recallLayout f = if 0 < n ∧ n < 2 ^ 31 then SlotFile.layOut (layout (UInt64.ofNat n)) f
      else .error (.error (.corrupted (.recordSize (UInt32.ofNat n).toInt32.toInt f.path))) f := by
  have hread : SlotFile.readBytes 0 recordHeaderBytes f =
      .ok (f.bytes.contents.take recordHeaderBytes) f := by
    rw [SlotFile.readBytes, if_neg (by decide), Action.run_bind, Action.run_get]
    simp only [FileBytes.read?_eq]
    rw [if_neg (by decide), if_pos (by simpa using h)]
    rfl
  have hlt : n < 2 ^ 32 := by
    have := BigEndian.decode_lt (f.bytes.contents.take recordHeaderBytes)
    rw [hn, List.length_take, Nat.min_eq_left h] at this
    exact this
  have hne : f.bytes.length ≠ 0 := by
    rw [FileBytes.length_eq]
    exact Nat.ne_of_gt (Nat.lt_of_lt_of_le (by decide) h)
  have hnot : ¬ f.bytes.length < recordHeaderBytes := by
    rw [FileBytes.length_eq]
    exact Nat.not_lt.2 h
  rw [recallLayout, Action.run_bind, Action.run_get]
  simp only [if_neg hne, if_neg hnot, Action.run_bind, hread, hn]
  have htoInt := toInt_header hlt
  by_cases hsize : 0 < n ∧ n < 2 ^ 31
  · rw [if_pos hsize.2] at htoInt
    rw [if_pos hsize, if_neg (by omega), htoInt]
    rfl
  · rw [if_neg hsize, if_pos (by rw [htoInt]; split_ifs <;> omega)]
    rfl

theorem recallLayout_of_nil (h : f.bytes.contents = []) : recallLayout f = .ok () f := by
  have hzero : f.bytes.length = 0 := by rw [FileBytes.length_eq, h]; rfl
  rw [recallLayout, Action.run_bind, Action.run_get]
  simp only [if_pos hzero]
  rfl

theorem recallLayout_of_short (h : f.bytes.contents ≠ [])
    (hshort : f.bytes.contents.length < recordHeaderBytes) :
    recallLayout f = .error (.error (.corrupted (.recordHeaderTooShort f.path))) f := by
  rw [← FileBytes.length_eq] at hshort
  have hne : f.bytes.length ≠ 0 := by
    rw [FileBytes.length_eq]
    exact fun hz => h (List.length_eq_zero_iff.1 hz)
  rw [recallLayout, Action.run_bind, Action.run_get]
  simp only [if_neg hne, if_pos hshort]
  rfl

/-- Recalling the size of the records succeeds if the file is empty, or begins with a size that
records can have. -/
theorem recallLayout_cases (h : recallLayout f = .ok () g) :
    (f.bytes.contents = [] ∧ g = f) ∨ ∃ n, recordHeaderBytes ≤ f.bytes.contents.length ∧
      BigEndian.decode (f.bytes.contents.take recordHeaderBytes) = n ∧ 0 < n ∧ n ≤ maxRecordSize ∧
        SlotFile.layOut (layout (UInt64.ofNat n)) f = .ok () g := by
  by_cases hempty : f.bytes.contents = []
  · rw [recallLayout_of_nil hempty] at h
    cases h
    exact .inl ⟨hempty, rfl⟩
  · by_cases hhead : recordHeaderBytes ≤ f.bytes.contents.length
    · rw [recallLayout_eq hhead rfl] at h
      split_ifs at h with hsize
      exact .inr ⟨_, hhead, rfl, hsize.1, Nat.le_sub_one_of_lt hsize.2, h⟩
    · rw [recallLayout_of_short hempty (Nat.not_le.1 hhead)] at h
      cases h

/-- Recalling the size of the records finds out the layout and the number of slots. -/
theorem exists_of_recallLayout (h : recallLayout f = .ok () g) :
    ∃ l n, g = { f with layout := l, count := n } := by
  obtain ⟨-, rfl⟩ | ⟨n, -, -, -, -, hlay⟩ := recallLayout_cases h
  · exact ⟨_, _, rfl⟩
  · exact ⟨_, _, (SlotFile.layOut_eq_ok_iff.1 hlay).2.2⟩

/-- Recalling the size of the records makes the handle know what the file says. -/
theorem inStep_of_recallLayout (h : recallLayout f = .ok () g) (hlayout : f.layout = none)
    (hcount : f.count = 0) (hlt : f.bytes.contents.length < 2 ^ 63) : InStep g := by
  obtain ⟨hempty, rfl⟩ | ⟨n, hhead, rfl, hpos, hle, hlay⟩ := recallLayout_cases h
  · exact .unset hlayout hempty hcount
  · have hlen : (f.bytes.contents.take recordHeaderBytes).length = recordHeaderBytes := by
      rw [List.length_take, Nat.min_eq_left hhead]
    obtain ⟨blocks, hblocks⟩ := SlotFile.holds_of_layOut hlay hhead
      (Nat.lt_of_le_of_lt (Nat.le_trans (Nat.mod_le _ _) hle) (by decide)) hlt
    refine .set hpos hle (?_ : g.Holds _ _ blocks)
    have hencode := BigEndian.encode_decode (f.bytes.contents.take recordHeaderBytes)
    rw [hlen] at hencode
    rw [encodeHeader, hencode]
    exact hblocks

/-- The size of the records is read back from the header. -/
theorem decode_encodeHeader {n : Nat} (h : n ≤ maxRecordSize) (rest : Bytes) :
    BigEndian.decode ((encodeHeader n ++ rest).take recordHeaderBytes) = n := by
  have hlen : (encodeHeader n).length = recordHeaderBytes := BigEndian.length_encode _ _
  rw [← hlen, List.take_left]
  exact BigEndian.decode_encode (Nat.lt_of_le_of_lt h (by decide))

/-- The handles that know what a file says recall the size of its records. -/
theorem InStep.recallLayout (h : InStep f) (hg : g.bytes.contents = f.bytes.contents)
    (hlayout : g.layout = none) (hcount : g.count = 0) :
    recallLayout g = .ok () { g with layout := f.layout, count := f.count } := by
  cases h with
  | unset hl hc hn =>
    rw [recallLayout_of_nil (hg.trans hc), hl, hn, ← hlayout, ← hcount]
  | @set n blocks hpos hle hholds =>
    have hlen : (encodeHeader n).length = recordHeaderBytes := BigEndian.length_encode _ _
    have hcontents : g.bytes.contents = encodeHeader n ++ blocks.flatten :=
      hg.trans hholds.contents_eq
    have hhead : recordHeaderBytes ≤ g.bytes.contents.length := by
      rw [hcontents, List.length_append, hlen]
      exact Nat.le_add_right _ _
    have hdecode : BigEndian.decode (g.bytes.contents.take recordHeaderBytes) = n :=
      hcontents ▸ decode_encodeHeader hle _
    rw [recallLayout_eq hhead hdecode, if_pos ⟨hpos, Nat.lt_of_le_of_lt hle (by decide)⟩,
      hholds.layOut hg, hholds.layout_eq]

theorem openAt_eq_ok_iff {path : String} {d d' : Disk} : openAt path d = .ok f d' ↔
    ∃ file, Disk.openFile path d = .ok file d' ∧
      recallLayout (.ofBytes path file (d'.bytes file)) = .ok () f :=
  SlotFile.openAt_bind_eq_ok_iff

end RecordFile

theorem PageFile.openAt_eq_ok_iff {path : String} {f : SlotFile} {d d' : Disk} :
    openAt path d = .ok f d' ↔ ∃ file, Disk.openFile path d = .ok file d' ∧
      SlotFile.layOut layout (.ofBytes path file (d'.bytes file)) = .ok () f :=
  SlotFile.openAt_bind_eq_ok_iff

namespace Store

variable {config : StoreConfig} {s : Store} {d d' : Disk}

theorem openAt_eq_ok_iff : openAt config d = .ok s d' ↔
    s.config = config ∧ ∃ d₁, PageFile.openAt config.indexPath d = .ok s.index d₁ ∧
      RecordFile.openAt config.recordPath d₁ = .ok s.records d' := by
  rw [openAt]
  simp only [Action.bind_eq_ok_iff, Action.pure_eq_ok_iff]
  constructor
  · rintro ⟨index, d₁, hindex, records, d₂, hrecords, rfl, rfl⟩
    exact ⟨rfl, d₁, hindex, hrecords⟩
  · rintro ⟨rfl, d₁, hindex, hrecords⟩
    exact ⟨_, d₁, hindex, _, d', hrecords, rfl, rfl⟩

/-- Both files are shorter than `2 ^ 63` bytes, as all files are. -/
structure Short (s : Store) : Prop where
  index : s.index.bytes.contents.length < 2 ^ 63
  records : s.records.bytes.contents.length < 2 ^ 63

/-- The handles of a store that has been opened know what the files say. -/
theorem inStep_of_openAt (h : openAt config d = .ok s d') (hshort : s.Short) :
    (∃ blocks, s.index.Holds PageFile.layout [] blocks) ∧ RecordFile.InStep s.records := by
  obtain ⟨hindex, hrecords⟩ := hshort
  obtain ⟨-, d₁, hi, hr⟩ := openAt_eq_ok_iff.1 h
  obtain ⟨file, -, hlay⟩ := PageFile.openAt_eq_ok_iff.1 hi
  obtain ⟨file', -, hrecall⟩ := RecordFile.openAt_eq_ok_iff.1 hr
  have hbytes : s.index.bytes = d₁.bytes file := by rw [(SlotFile.layOut_eq_ok_iff.1 hlay).2.2]; rfl
  have hbytes' : s.records.bytes = d'.bytes file' := by
    obtain ⟨l, n, heq⟩ := RecordFile.exists_of_recallLayout hrecall
    rw [heq]
    rfl
  rw [hbytes] at hindex
  rw [hbytes'] at hrecords
  exact ⟨SlotFile.holds_of_layOut hlay (Nat.zero_le _) (Nat.le_of_ble_eq_true rfl) hindex,
    RecordFile.inStep_of_recallLayout hrecall rfl rfl hrecords⟩

/-- A store whose files are empty when it is opened has no pages and no records. -/
theorem blank_of_openAt (h : openAt config d = .ok s d') (hindex : s.index.bytes.contents = [])
    (hrecords : s.records.bytes.contents = []) : s.Blank := by
  obtain ⟨⟨blocks, hi⟩, hr⟩ := inStep_of_openAt h
    ⟨by rw [hindex]; exact Nat.two_pow_pos 63, by rw [hrecords]; exact Nat.two_pow_pos 63⟩
  have hlen := hi.length_contents
  rw [hindex, List.length_nil] at hlen
  have hnil : blocks = [] := by
    rcases Nat.mul_eq_zero.1 (Nat.eq_zero_of_add_eq_zero_left hlen.symm) with hz | hz
    · exact List.length_eq_zero_iff.1 hz
    · exact absurd hz (Nat.ne_of_gt hi.size_pos)
  subst hnil
  cases hr with
  | unset hl hc hn => exact ⟨hi, hl, hc, hn⟩
  | set hpos hle hholds =>
    have hlen := hholds.length_head
    rw [List.append_eq_nil_iff.1 (hholds.contents_eq.symm.trans hrecords) |>.1] at hlen
    cases hlen

end Store

namespace Tree

variable {s s' : Store} {t : Tree}

/-- A tree is opened with the key type and the root that its header page names. -/
theorem load_eq_ok_iff : load s = .ok t s' ↔ s.isEmpty = false ∧ ∃ header : HeaderPage,
    (PageFile.page? s.index .header).bind (fun page => (HeaderPage.ofPage page).toOption) =
      some header ∧
    s' = { s with index := s.index.addReads 1 } ∧ t = ⟨s', header.keyType, header.root, false⟩ := by
  rw [load, Action.run_bind, Action.run_get]
  cases hempty : s.isEmpty with
  | true => simp [hempty]
  | false =>
    simp only [hempty, Bool.false_eq_true, if_false, Action.bind_eq_ok_iff, Store.onIndex,
      Action.within_eq_ok_iff, fetchPage_eq_ok_iff, Action.ofExcept_eq_ok_iff,
      Option.bind_eq_some_iff,
      toOption_eq_some_iff, Action.run_get, Action.pure_eq_ok_iff, true_and]
    constructor
    · rintro ⟨page, s₁, ⟨f, ⟨hpage, rfl⟩, rfl⟩, header, s₂, ⟨hheader, rfl⟩, s₃, s₄, heq, rfl, rfl⟩
      cases heq
      exact ⟨header, ⟨page, hpage, hheader⟩, rfl, rfl⟩
    · rintro ⟨header, ⟨page, hpage, hheader⟩, rfl, rfl⟩
      exact ⟨page, _, ⟨_, ⟨hpage, rfl⟩, rfl⟩, header, _, ⟨hheader, rfl⟩, _, _, rfl, rfl, rfl⟩

/-- A tree that is opened is in step. -/
theorem inStep_of_load {config : StoreConfig} {d d' : Disk} (h : Store.openAt config d = .ok s d')
    (hshort : s.Short) (ht : load s = .ok t s') : t.InStep := by
  obtain ⟨-, header, -, rfl, rfl⟩ := load_eq_ok_iff.1 ht
  obtain ⟨⟨blocks, hi⟩, hr⟩ := Store.inStep_of_openAt h hshort
  exact ⟨⟨blocks, hi.addReads 1⟩, hr⟩

/-! ### How long the files are -/

theorem InStep.length_index (h : t.InStep) :
    t.store.index.bytes.contents.length = t.view.pageCount * pageSize := by
  obtain ⟨⟨blocks, hi⟩, -⟩ := h
  have hcount : t.view.pageCount = blocks.length := hi.count_eq
  rw [hi.length_contents, hcount]
  exact Nat.zero_add _

theorem InStep.length_records (h : t.InStep) :
    t.store.records.bytes.contents = [] ∧ t.view.recordSize = none ∨
      ∃ n ≤ RecordFile.maxRecordSize, t.view.recordSize = some n ∧
        t.store.records.bytes.contents.length = recordHeaderBytes + t.view.recordCount * n := by
  have hsize : t.view.recordSize = t.store.records.slotSize?.map (·.toNat) := rfl
  obtain ⟨-, hr⟩ := h
  cases hr with
  | unset hlayout hempty _ => exact .inl ⟨hempty, by rw [hsize, SlotFile.slotSize?, hlayout]; rfl⟩
  | @set n blocks hpos hle hholds =>
    have hn : (RecordFile.layout (UInt64.ofNat n)).slotSize.toNat = n :=
      RecordFile.toNat_ofNat_size hle
    have hcount : t.view.recordCount = blocks.length := hholds.count_eq
    refine .inr ⟨n, hle, ?_, ?_⟩
    · rw [hsize, SlotFile.slotSize?, hholds.layout_eq]
      exact congrArg some hn
    · rw [hholds.length_contents, hcount, hn]
      rfl

/-- A file that cannot become longer has `2 ^ 63` bytes already. -/
theorem InStep.full_iff (h : t.InStep) : t.view.Full ↔
    2 ^ 63 ≤ t.store.index.bytes.contents.length ∨
      2 ^ 63 ≤ t.store.records.bytes.contents.length := by
  rw [View.Full, h.length_index]
  refine or_congr Iff.rfl ?_
  rcases h.length_records with ⟨hempty, hnone⟩ | ⟨n, -, hn, hlength⟩
  · simp [hempty, hnone]
  · simp [hn, hlength]

/-- Files of a length that files can have are those that can become longer. -/
theorem InStep.short_iff (h : t.InStep) : t.store.Short ↔ ¬ t.view.Full := by
  rw [h.full_iff, not_or, Nat.not_le, Nat.not_le]
  exact ⟨fun hshort => ⟨hshort.index, hshort.records⟩, fun hlt => ⟨hlt.1, hlt.2⟩⟩

/-- Few pages and few records make short files. -/
theorem InStep.short (h : t.InStep) (hpages : t.pageCount.toNat * pageSize < 2 ^ 63)
    (hrecords : recordHeaderBytes + t.recordCount.toNat * RecordFile.maxRecordSize < 2 ^ 63) :
    t.store.Short := by
  refine ⟨h.length_index ▸ hpages, ?_⟩
  rcases h.length_records with ⟨hempty, -⟩ | ⟨n, hle, -, hlength⟩
  · rw [hempty]
    exact Nat.two_pow_pos 63
  · rw [hlength]
    exact Nat.lt_of_le_of_lt (Nat.add_le_add_left (Nat.mul_le_mul_left _ hle) _) hrecords

end Tree

end RecordIndex
