import RecordIndex.Proofs.CleanFiles
import RecordIndex.Proofs.Histories

/-!
# Everything in the files is accounted for

No page and no record slot is lost: each is in use in one place, or it is filled with zeros.

* `Tree.Kept`: what every call keeps up (`Tree.Kept.call`), and what a run does (`Tree.Kept.leave`).
* `Tree.Accounted`: what follows of the pages and slots of a tree.
-/

namespace RecordIndex

open RecordIndex.Action

/-! ### Calls keep files clean -/

/-- What a change leaves, whether or not it fails: some slots have been written, and the tree may have
been marked. -/
theorem Change.exists_writes (c : Change) {t : Tree} (ht : t.Opened) : ∃ k u b, Tree.Writes k t u ∧
    finalState (c.run t) = { u with needsRepair := b } := by
  rcases c.finalState_run_cases t with heq | ⟨hnot, b, heq⟩
  · exact ⟨0, t, t.needsRepair, .refl t, heq⟩
  · obtain ⟨k, -, hw, -⟩ := Change.tries_make hnot t ht
    exact ⟨k, _, b, hw, heq⟩

/-- What is asked of a tree leaves it with some slots written, whether or not it fails. -/
theorem Request.exists_writes (r : Request) {t : Tree} (ht : t.Opened) : ∃ k u b,
    Tree.Writes k t u ∧ finalState (r.run t) = { u with needsRepair := b } := by
  cases r with
  | change c => exact c.exists_writes ht
  | question q =>
    obtain ⟨k, -, hw, -⟩ := q.costs_run (z := .all) t ht (Nat.zero_le _)
    exact ⟨k, _, _, hw, rfl⟩

namespace Call

theorem clean_run {t : Tree} (h : t.Clean) (c : Call) : (finalState (c.run t)).Clean := by
  cases hr : c.request? with
  | some r =>
    obtain ⟨k, u, b, hw, heq⟩ := r.exists_writes h.inStep.opened
    rw [finalState_run hr, heq]
    have hclean := hw.clean h (Nat.zero_le _)
    exact ⟨hclean.index, hclean.records⟩
  | none =>
    cases c with
    | clear => exact Tree.clean_planted (shows_clear h.inStep)
    | _ => cases hr

end Call

/-! ### Runs -/

namespace Tree

/-- What every call keeps up: the files are clean, and the tree is tidy, or it waits to be repaired
because a file cannot become longer. -/
structure Kept (t : Tree) : Prop where
  clean : t.Clean
  exists_tidy : t.needsRepair = false →
    ∃ (h : Nat) (s : Shape h), t.view.HasShape s ∧ t.view.Tidy s
  full : t.needsRepair = true → t.view.Full

variable {t : Tree}

theorem kept_planted {home : Home} {keyType : FieldType}
    (h : t.Shows (View.planted home keyType)) : t.Kept where
  clean := clean_planted h
  exists_tidy _ := by
    rw [h.2]
    exact ⟨_, _, View.hasShape_planted home keyType, View.tidy_planted home keyType⟩
  full hmarked := by cases (congrArg View.needsRepair h.2).symm.trans hmarked

/-- One call. What is no longer in use stays so unless the tree is cleared, and if the tree waits to be
repaired, it has done so before or the file system has failed. -/
theorem Kept.call (h : t.Kept) (c : Call) : (finalState (c.run t)).Kept ∧
    (c ≠ .clear → t.view.Retires (finalState (c.run t)).view) ∧
      ((finalState (c.run t)).needsRepair = true → t.needsRepair = true ∨
        ∃ cause, answer (c.run t) = .error (.error (.io cause))) := by
  cases hrepair : t.needsRepair with
  | false =>
    obtain ⟨_, s, hs, htidy⟩ := h.exists_tidy hrepair
    obtain ⟨d, hd⟩ := View.WellFormed.exists_represents ⟨_, s, hs⟩ hrepair
    obtain ⟨o, v', ho, ⟨-, rfl⟩, -, houtcome, hleaves⟩ :=
      Call.ends_effect hd c t ⟨h.clean.inStep, rfl⟩
    refine ⟨⟨Call.clean_run h.clean c, hleaves.tidy hs htidy, hleaves.full⟩, hleaves.retires,
      fun hmarked => ?_⟩
    rcases houtcome with ⟨-, hd', -⟩ | ⟨⟨cause, rfl⟩, -⟩
    · cases hd'.intact.symm.trans hmarked
    · exact .inr ⟨cause, ho⟩
  | true =>
    cases hr : c.request? with
    | some r =>
      -- only what is read is counted, until the tree is cleared
      obtain ⟨i, j, heq⟩ := Request.exists_addReads [r] h.clean.inStep.opened hrepair
      have hstate : finalState (c.run t) = t.addReads i j := (Call.finalState_run hr t).trans heq
      rw [hstate]
      exact ⟨⟨h.clean.addReads i j, h.exists_tidy, h.full⟩, fun _ => .refl _, fun _ => .inl rfl⟩
    | none =>
      cases c with
      | clear =>
        have hshows := Call.shows_clear h.clean.inStep
        exact ⟨kept_planted hshows, fun hc => absurd rfl hc, fun _ => .inl rfl⟩
      | _ => cases hr

/-- Any calls, one after the other. -/
theorem Kept.leave (h : t.Kept) (calls : List Call) : (Call.leave calls t).Kept ∧
    (.clear ∉ calls → t.view.Retires (Call.leave calls t).view) ∧
      ((Call.leave calls t).needsRepair = true → t.needsRepair = true ∨
        ∃ cause, .error (.error (.io cause)) ∈ Call.replies calls t) := by
  induction calls generalizing t with
  | nil => exact ⟨h, fun _ => .refl _, .inl⟩
  | cons c calls ih =>
    obtain ⟨hkept, hretires, hmarked⟩ := h.call c
    obtain ⟨hkept', hretires', hmarked'⟩ := ih hkept
    refine ⟨hkept', fun hclear => ?_, fun hrepair => ?_⟩
    · obtain ⟨hc, hcalls⟩ := not_or.1 (mt List.mem_cons.2 hclear)
      exact (hretires (Ne.symm hc)).trans (hretires' hcalls)
    · rcases hmarked' hrepair with hrepair | ⟨cause, hmem⟩
      · refine (hmarked hrepair).imp_right ?_
        rintro ⟨cause, hanswer⟩
        exact ⟨cause, hanswer ▸ List.mem_cons_self⟩
      · exact .inr ⟨cause, List.mem_cons_of_mem _ hmem⟩

/-! ### Accounts -/

/-- Each page but the header page is one node of the tree, or filled with zeros; and each record slot
holds the record of one entry, or is filled with zeros. -/
structure Accounted (t : Tree) {h : Nat} (s : Shape h) : Prop where
  shape : t.view.HasShape s
  page : ∀ p, t.view.HasPage p →
    s.pages.count p = 1 ∧ ¬ t.store.index.Zeroed p.number ∨
      s.pages.count p = 0 ∧ t.store.index.Zeroed p.number
  slot : ∀ id : RecordId, id.number.toNat < t.recordCount.toNat →
    ((s.entries.map Prod.snd).count id = 1 ∧ ∃ k r, (k, id) ∈ s.entries ∧
      RecordFile.record? t.store.records id = some r ∧ r.key = k) ∨
    (s.entries.map Prod.snd).count id = 0 ∧ t.store.records.Zeroed id.number

/-- The files are as long as their pages and records are. The record file is empty, or it says at its
front how large a record is. -/
structure Sized (t : Tree) : Prop where
  index : t.store.index.bytes.contents.length = t.pageCount.toNat * pageSize
  records : t.store.records.bytes.contents = [] ∧ t.recordCount = 0 ∨
    ∃ n ≤ RecordFile.maxRecordSize, t.store.records.slotSize? = some (UInt64.ofNat n) ∧
      t.store.records.bytes.contents.take recordHeaderBytes = RecordFile.encodeHeader n ∧
        t.store.records.bytes.contents.length = recordHeaderBytes + t.recordCount.toNat * n

/-- There are no fewer pages and slots than before, and those that have been filled with zeros are so
still. -/
structure Retires (t t' : Tree) : Prop where
  pageCount_le : t.pageCount.toNat ≤ t'.pageCount.toNat
  recordCount_le : t.recordCount.toNat ≤ t'.recordCount.toNat
  page : ∀ p, t.view.HasPage p → t.store.index.Zeroed p.number → t'.store.index.Zeroed p.number
  slot : ∀ id : RecordId, id.number.toNat < t.recordCount.toNat →
    t.store.records.Zeroed id.number → t'.store.records.Zeroed id.number

theorem Clean.sized (h : t.Clean) : t.Sized where
  index := by
    obtain ⟨blocks, hi, -⟩ := h.index
    rw [hi.length_contents, pageCount, hi.count_eq]
    exact Nat.zero_add _
  records := by
    cases h.records with
    | unset hlayout hempty hcount => exact .inl ⟨hempty, hcount⟩
    | set hpos hle hrows =>
      rename_i n
      obtain ⟨blocks, hr, -⟩ := hrows
      have hhead : (RecordFile.encodeHeader n).length = recordHeaderBytes :=
        BigEndian.length_encode ..
      have hsize : (RecordFile.layout (UInt64.ofNat n)).slotSize.toNat = n :=
        RecordFile.toNat_ofNat_size hle
      refine .inr ⟨n, hle, ?_, ?_, ?_⟩
      · rw [SlotFile.slotSize?, hr.layout_eq]
        rfl
      · rw [hr.contents_eq, List.take_left' hhead]
      · rw [hr.length_contents, ← hr.length_head, hhead, hsize, recordCount, hr.count_eq]

theorem Clean.accounted (hc : t.Clean) {h : Nat} {s : Shape h} (hs : t.view.HasShape s)
    (htidy : t.view.Tidy s) : t.Accounted s where
  shape := hs
  page p hp := by
    rw [hc.zeroed_page_iff hp]
    by_cases hmem : p ∈ s.pages
    · obtain ⟨n, hn⟩ := hs.stored.exists_node hmem
      exact .inl ⟨List.count_eq_one_of_mem hs.nodup hmem, fun hnone => by cases hn.symm.trans hnone⟩
    · exact .inr ⟨List.count_eq_zero.2 hmem, htidy.node p hp hmem⟩
  slot id hid := by
    rw [hc.zeroed_slot_iff hid]
    by_cases hmem : id ∈ s.entries.map Prod.snd
    · obtain ⟨⟨k, id'⟩, he, rfl⟩ := List.mem_map.1 hmem
      obtain ⟨r, hr, hk⟩ := hs.resolved _ he
      exact .inl ⟨List.count_eq_one_of_mem hs.nodup_records hmem, k, r, he, hr, hk⟩
    · exact .inr ⟨List.count_eq_zero.2 hmem, htidy.record id hid hmem⟩

/-- Where there are more slots than entries, a slot is filled with zeros. -/
theorem Accounted.exists_zeroed_slot {h : Nat} {s : Shape h} (ha : t.Accounted s)
    (hlt : s.entries.length < t.recordCount.toNat) :
    ∃ id : RecordId, id.number.toNat < t.recordCount.toNat ∧ t.store.records.Zeroed id.number := by
  by_contra hnone
  have hsub : List.range t.recordCount.toNat ⊆
      (s.entries.map Prod.snd).map fun id => id.number.toNat := by
    intro i hi
    have hi := List.mem_range.1 hi
    have hnumber : (UInt64.ofNat i).toNat = i :=
      UInt64.toNat_ofNat_of_lt' (hi.trans t.recordCount.toNat_lt)
    have hid : (⟨UInt64.ofNat i⟩ : RecordId).number.toNat < t.recordCount.toNat := by
      rw [hnumber]
      exact hi
    rcases ha.slot _ hid with ⟨hcount, -⟩ | ⟨-, hzero⟩
    · refine List.mem_map.2 ⟨_, List.count_pos_iff.1 (hcount ▸ Nat.one_pos), hnumber⟩
    · exact absurd ⟨_, hid, hzero⟩ hnone
  have hle := (List.subperm_of_subset List.nodup_range hsub).length_le
  rw [List.length_range, List.length_map, List.length_map] at hle
  exact Nat.not_lt.2 hle hlt

/-- Where there are more pages than nodes and the header page, a page is filled with zeros. -/
theorem Accounted.exists_zeroed_page {h : Nat} {s : Shape h} (ha : t.Accounted s)
    (hlt : s.pages.length + 1 < t.pageCount.toNat) :
    ∃ p, t.view.HasPage p ∧ t.store.index.Zeroed p.number := by
  by_contra hnone
  have hsub : List.range t.pageCount.toNat ⊆
      (.header :: s.pages).map fun p => p.number.toNat := by
    intro i hi
    have hi := List.mem_range.1 hi
    have hnumber : (UInt64.ofNat i).toNat = i :=
      UInt64.toNat_ofNat_of_lt' (hi.trans t.pageCount.toNat_lt)
    refine List.mem_map.2 ⟨⟨UInt64.ofNat i⟩, ?_, hnumber⟩
    by_cases hheader : (⟨UInt64.ofNat i⟩ : PageId) = .header
    · exact hheader ▸ List.mem_cons_self
    · have hp : t.view.HasPage ⟨UInt64.ofNat i⟩ := ⟨hheader, hnumber.symm ▸ hi⟩
      rcases ha.page _ hp with ⟨hcount, -⟩ | ⟨-, hzero⟩
      · exact List.mem_cons_of_mem _ (List.count_pos_iff.1 (hcount ▸ Nat.one_pos))
      · exact absurd ⟨_, hp, hzero⟩ hnone
  have hle := (List.subperm_of_subset List.nodup_range hsub).length_le
  rw [List.length_range, List.length_map, List.length_cons] at hle
  exact Nat.not_lt.2 hle hlt

theorem Clean.retires {t' : Tree} (h : t.Clean) (h' : t'.Clean) (hv : t.view.Retires t'.view) :
    t.Retires t' where
  pageCount_le := hv.pageCount_le
  recordCount_le := hv.recordCount_le
  page p hp hzero := by
    have hp' : t'.view.HasPage p := ⟨hp.1, Nat.lt_of_lt_of_le hp.2 hv.pageCount_le⟩
    rw [h'.zeroed_page_iff hp']
    exact hv.node p hp ((h.zeroed_page_iff hp).1 hzero)
  slot id hid hzero := by
    have hid' : id.number.toNat < t'.view.recordCount := Nat.lt_of_lt_of_le hid hv.recordCount_le
    rw [h'.zeroed_slot_iff hid']
    exact hv.record id hid ((h.zeroed_slot_iff hid).1 hzero)

/-- In every tree that is made in a store whose files are empty when it is opened, whatever calls are
made of it, the files are as long as their pages and records, and each page and each slot is in use in
one place or filled with zeros. Only when a file is as long as a file can be may the tree have lost
some, and then a call has failed and the tree has been marked. Until a tree is cleared, nothing that
has been filled with zeros is used again. -/
theorem accounted_make {config : StoreConfig} {disk disk' : Disk} {s : Store}
    (h : Store.openAt config disk = .ok s disk') (hindex : s.index.bytes.contents = [])
    (hrecords : s.records.bytes.contents = []) (keyType : FieldType) :
    ∃ t : Tree, make keyType s = .ok t t.store ∧ ∀ calls : List Call,
      (Call.leave calls t).Sized ∧
      ((Call.leave calls t).needsRepair = false →
        ∃ (height : Nat) (shape : Shape height), (Call.leave calls t).Accounted shape) ∧
      ((Call.leave calls t).needsRepair = true →
        (∃ cause, .error (.error (.io cause)) ∈ Call.replies calls t) ∧
          (2 ^ 63 ≤ (Call.leave calls t).store.index.bytes.contents.length ∨
            2 ^ 63 ≤ (Call.leave calls t).store.records.bytes.contents.length)) ∧
      ∀ later : List Call, .clear ∉ later →
        (Call.leave calls t).Retires (Call.leave (calls ++ later) t) := by
  obtain ⟨t, hmake, ht⟩ := exists_make (Store.blank_of_openAt h hindex hrecords) keyType
  refine ⟨t, hmake, fun calls => ?_⟩
  obtain ⟨hkept, -, hmarked⟩ := (kept_planted ht).leave calls
  refine ⟨hkept.clean.sized, fun hintact => ?_, fun hrepair => ⟨?_, ?_⟩, fun later hlater => ?_⟩
  · obtain ⟨n, shape, hs, htidy⟩ := hkept.exists_tidy hintact
    exact ⟨n, shape, hkept.clean.accounted hs htidy⟩
  · refine (hmarked hrepair).resolve_left fun hmark => ?_
    cases (congrArg View.needsRepair ht.2).symm.trans hmark
  · exact hkept.clean.inStep.full_iff.1 (hkept.full hrepair)
  · obtain ⟨hkept', hretires, -⟩ := hkept.leave later
    rw [Call.leave_append]
    exact hkept.clean.retires hkept'.clean (hretires hlater)

/-- Six records are inserted into a new tree, and one of them is deleted. The other five are in use, and
a page and a slot have been filled with zeros. -/
theorem accounted_make_newStore : ∃ t t' : Tree, make .int32 newStore = .ok t t.store ∧
    Call.leave (Call.insertions [1, 2, 3, 4, 5, 6] ++ [.delete (.int32 1)]) t = t' ∧
    (∃ (height : Nat) (shape : Shape height), t'.Accounted shape ∧ shape.entries.length = 5) ∧
    (∃ p, t'.view.HasPage p ∧ t'.store.index.Zeroed p.number) ∧
    ∃ id : RecordId, id.number.toNat < t'.recordCount.toNat ∧
      t'.store.records.Zeroed id.number := by
  obtain ⟨disk, hopen⟩ := exists_openAt_newStore
  obtain ⟨t, hmake, hcalls⟩ := accounted_make hopen rfl rfl .int32
  obtain ⟨t₁, hmake', hleave⟩ := exists_make_newStore
  cases hmake.symm.trans hmake'
  obtain ⟨-, hsix, -⟩ := hleave (Call.insertions [1, 2, 3, 4, 5, 6]) (by decide)
  obtain ⟨-, hfive, -⟩ := hleave (Call.insertions [1, 2, 3, 4, 5, 6] ++ [.delete (.int32 1)]) (by decide)
  obtain ⟨-, haccounted, -⟩ :=
    hcalls (Call.insertions [1, 2, 3, 4, 5, 6] ++ [Call.delete (.int32 1)])
  obtain ⟨-, -, -, hretires⟩ := hcalls (Call.insertions [1, 2, 3, 4, 5, 6])
  obtain ⟨hpages, hrecords, -⟩ := hretires [.delete (.int32 1)] (by simp)
  obtain ⟨H, shape, hshape⟩ := haccounted hfive.view.intact
  generalize heq : Call.leave (Call.insertions [1, 2, 3, 4, 5, 6] ++ [Call.delete (.int32 1)]) t = t'
    at *
  have hentries : shape.entries.length = 5 :=
    (hfive.card_keys hshape.shape).symm.trans (by decide)
  -- with six records the tree has been higher
  obtain ⟨H₆, s, hs, -⟩ := hsix.view.exists_shape
  have hmore : s.entries.length = 6 := (hsix.card_keys hs).symm.trans (by decide)
  have hslots := hs.length_entries_le_recordCount (valid_view _)
  have hheight := (answer_height hs).symm.trans (hsix.height_eq_two (by decide))
  have hheight' := (answer_height hshape.shape).symm.trans (hfive.height_eq_one (by decide))
  cases hheight
  cases hheight'
  have hnodes := s.height_lt_length_pages
  have hfile := hs.stored.length_pages_lt (valid_view _) hs.nodup
  refine ⟨t, t', hmake, heq, ⟨_, shape, hshape, hentries⟩, hshape.exists_zeroed_page ?_,
    hshape.exists_zeroed_slot ?_⟩
  · have hone : shape.pages.length = 1 := rfl
    have hview : (Call.leave (Call.insertions [1, 2, 3, 4, 5, 6]) t).view.pageCount ≤
      t'.pageCount.toNat := hpages
    omega
  · have hview : (Call.leave (Call.insertions [1, 2, 3, 4, 5, 6]) t).view.recordCount ≤
      t'.recordCount.toNat := hrecords
    omega

end Tree

end RecordIndex
