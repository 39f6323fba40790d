import RecordIndex.Proofs.Histories

/-!
# Trees that are marked

A change that fails has either left the bytes of both files as they were, or it has marked the tree,
and then no change is let in until the tree is cleared. This holds of damaged trees too.

* `Tree.exists_delete_of_tangled`: a root whose parent link leads to itself loses its only record, and
  then the deletion fails.
* `Tree.exists_writes_of_failed`: what a change leaves if it fails, with the number of slots written.
* `Tree.unchanged_or_marked`: what this means for the bytes, and from then on.
-/

namespace RecordIndex

open RecordIndex.Action

/-! ### A deletion that fails half-way -/

/-- The root is a leaf with a single entry, and its parent link leads to itself. -/
structure View.Tangled (v : View) (l : Leaf) (key : Field) (id : RecordId) : Prop where
  node_root : v.node v.root = some (.leaf l)
  parent_eq : l.parent = some v.root
  keys_eq : l.keys = [key]
  records_eq : l.records = [id]

/-- The only leaf of a tree is made its own parent. -/
theorem View.tangled_put {v : View} {w : Shape 0} (hw : v.HasShape w) {key : Field} {id : RecordId}
    (hentries : w.entries = [(key, id)]) : (v.put (w.node v.keyType (some v.root))).Tangled
      (w.toLeaf v.keyType (some v.root)) key id where
  node_root := by
    rw [node_put]
    exact if_pos hw.root_eq
  parent_eq := rfl
  keys_eq := congrArg (List.map Prod.fst) hentries
  records_eq := congrArg (List.map Prod.snd) hentries

namespace Tree

section Tangled

variable {t : Tree} {v : View} {l : Leaf} {key : Field} {id : RecordId}

/-- A leaf cannot be mended if its parent link leads to a leaf. -/
theorem answers_mendLeaf_error {p : PageId} (h : v.node p = some (.leaf l)) (steps : Nat)
    (leaf : Leaf) : Answers (mendLeaf steps p leaf) v
      (.error (.error (.invalidOperation (.expectedInternal l.page)))) :=
  ((answers_fetchNode h).bind (answers_ofExcept_error _)).bind_error

theorem answers_findLeaf_of_tangled (h : v.Tangled l key id) : Answers (findLeaf key) v (.ok l) := by
  have hdescend : AnswersIn (descend (fun n => Keys.firstLarger key n.keys) (v.pageCount + 1) v.root)
      v (l, 0) 1 0 := (answersIn_fetchNode h.node_root).bind_free (answersIn_pure _)
  exact ((descendFromRoot_of_descend hdescend).map Prod.fst).answers

/-- The record has gone when the deletion fails. -/
theorem exists_removeKey_of_tangled (ht : t.InStep) (h : t.view.Tangled l key id)
    (hid : id.number.toNat < t.view.recordCount) :
    ∃ (e : Error) (u : Tree), removeKey key t = .error (.error e) u ∧ u.view.record id = none := by
  obtain ⟨i, j, hfind⟩ := (answers_findLeaf_of_tangled h).run_ok rfl
  obtain ⟨u, herase, hu⟩ := turns_eraseRecord hid _ ⟨ht.addReads i j, rfl⟩
  have hroot : (t.view.setRecord id none).node t.view.root = some (.leaf l) := h.node_root
  obtain ⟨i', j', hmend⟩ := (answers_mendLeaf_error hroot u.stepLimit
    { l with parent := some t.view.root, keys := [], records := [] }).run_error hu.2
  have hindex : Keys.indexOf? key l.keys = some 0 := by
    rw [h.keys_eq, Keys.indexOf?_eq_some_iff (List.pairwise_singleton ..)]
    rfl
  have hremove : l.removeEntry 0 = .ok (id, { l with keys := [], records := [] }) := by
    rw [Leaf.removeEntry, h.keys_eq, h.records_eq]
    rfl
  have hfew : ¬ minLeafKeys ≤
      ({ l with parent := some t.view.root, keys := [], records := [] }).size := by
    show ¬ minLeafKeys ≤ 0
    decide
  refine ⟨.invalidOperation (.expectedInternal l.page), u.addReads i' j', ?_, ?_⟩
  · rw [removeKey, run_bind, hfind]
    simp only [hindex, hremove, ofChecked_ok, pure_bind]
    rw [run_bind, herase]
    simp only [h.parent_eq]
    rw [if_neg hfew, run_bind, run_get]
    exact hmend
  · show u.view.record id = none
    rw [hu.2]
    exact Function.update_self ..

theorem exists_delete_of_tangled (ht : t.InStep) (hintact : t.needsRepair = false)
    (hkey : key.type = t.keyType) (h : t.view.Tangled l key id) {r : Record}
    (hr : t.view.record id = some r) : ∃ (e : Error) (t' : Tree),
      (Change.delete key).run t = .error (.error e) t' ∧ t'.view.record id = none := by
  obtain ⟨e, u, hremove, hgone⟩ :=
    exists_removeKey_of_tangled ht h (t.valid_view.record_lt hr)
  have hcheck : (Change.delete key).check t = .ok () t := by
    have hanswers := answersIn_requireKeyType hkey t rfl
    rwa [addReads_zero] at hanswers
  refine ⟨e, { u with needsRepair := u.needsRepair || leftHalfChanged t u e }, ?_, hgone⟩
  rw [Change.run_of_intact _ hintact, run_bind, hcheck]
  show guarded (removeKey key) t = _
  rw [guarded, hremove]

end Tangled

/-- The parent link of a new tree with one record is changed to lead to the leaf itself, and the tree
is saved and opened again. -/
theorem exists_tangled_newStore : ∃ (disk : Disk) (s s' : Store) (t : Tree) (l : Leaf)
    (id : RecordId) (r : Record), Store.openAt newStore.config disk = .ok s disk ∧
      load s = .ok t s' ∧ t.InStep ∧ t.Opened ∧ t.needsRepair = false ∧
      (Field.int32 7).type = t.keyType ∧ t.view.Tangled l (.int32 7) id ∧
      t.view.record id = some r := by
  obtain ⟨u, -, hleave⟩ := exists_make_newStore
  obtain ⟨hshort, hone, hcontinues⟩ := hleave (Call.insertions [7]) (by decide)
  generalize Call.leave (Call.insertions [7]) u = t at hshort hone hcontinues
  -- its root is a leaf with a single entry
  obtain ⟨H, w, hw, hm⟩ := hone.view.exists_shape
  have hlength : w.entries.length = 1 := (hone.card_keys hw).symm.trans (by decide)
  obtain rfl : H = 0 := by
    by_contra hH
    have hlow := hw.length_entries_bounds.2 (Nat.pos_of_ne_zero hH)
    have hpow : 0 < 3 ^ H := Nat.pow_pos (by decide)
    omega
  obtain ⟨id, he, hr⟩ := (hm (.int32 7) (scored 7 0)).1 (by decide)
  have hentries : w.entries = [(.int32 7, id)] := by
    obtain ⟨e, hsingle⟩ := List.length_eq_one_iff.1 hlength
    rw [hsingle, List.mem_singleton] at he
    rw [hsingle, he]
  -- the link is changed
  have hroot : t.view.node t.view.root = some (w.node t.view.keyType none) :=
    hw.root_eq ▸ hw.stored.1
  obtain ⟨t', -, hstep, hview⟩ := turns_relink hroot (some t.view.root) t ⟨hone.inStep, rfl⟩
  rw [Shape.withParent_node] at hview
  have hshort' : t'.store.Short := by
    rw [hstep.short_iff, hview]
    exact hone.inStep.short_iff.1 hshort
  have hkeep : t.view.Keeps t'.view := hview ▸ View.keeps_put _ _
  have hintact : t'.needsRepair = false := hkeep.needsRepair.trans hone.view.intact
  have htype : t'.keyType = .int32 := hkeep.keyType.trans (hone.view.keyType_eq.symm.trans (by decide))
  obtain ⟨disk, s, s', n, hopen, hload, hstep', hopened⟩ := exists_load_saved hstep hshort'
    (hkeep.home.trans hcontinues.home) (hkeep.header (hcontinues.header rfl)) hintact
  exact ⟨disk, s, s', t'.tally n, _, id, scored 7 0, hopen, hload, hstep', hopened, hintact,
    htype.symm, hview ▸ View.tangled_put hw hentries, (congrFun hkeep.record id).trans hr⟩

/-! ### What a failed change leaves -/

/-- What a change leaves if it fails. A change that is refused has written nothing. -/
theorem exists_writes_of_failed {c : Change} {t t' : Tree} {e : Error} (ht : t.Opened)
    (h : c.run t = .error (.error e) t') : ∃ k < 2 ^ 64, ∃ u, Writes k t u ∧
      t' = { u with needsRepair := t.needsRepair || decide (0 < k) || e.isIo } ∧
      (e = .needsRepair ∨ e.isRefusal = true ∨ c.Refused t → k = 0 ∧ e.isIo = false) := by
  cases hrepair : t.needsRepair with
  | true =>
    rw [c.run_of_needsRepair hrepair] at h
    cases h
    exact ⟨0, by decide, t, .refl t, by rw [Bool.true_or, Bool.true_or, ← hrepair],
      fun _ => ⟨rfl, rfl⟩⟩
  | false =>
    rcases c.run_cases hrepair with ⟨e', he, hrun⟩ | ⟨hnot, hrun⟩
    · rw [hrun] at h
      cases h
      have hio := Error.isIo_of_isRefusal he
      exact ⟨0, by decide, t, .refl t, by rw [hio, ← hrepair]; simp, fun _ => ⟨rfl, hio⟩⟩
    · rw [hrun] at h
      obtain ⟨k, hk, u, hw, hmidway, rfl⟩ := (Change.tries_make hnot).guarded ht h
      refine ⟨k, hk, u, hw, by rw [hrepair], fun hrefused => ?_⟩
      have hrefusal : e = .needsRepair ∨ e.isRefusal = true := by
        rcases hrefused with h | h | h
        · exact .inl h
        · exact .inr h
        · exact absurd h hnot
      refine ⟨Nat.eq_zero_of_not_pos fun hpos => ?_, ?_⟩
      · obtain ⟨hno, hne⟩ := hmidway hpos
        rcases hrefusal with h | h
        · exact hne h
        · rw [hno] at h
          cases h
      · rcases hrefusal with rfl | h
        · rfl
        · exact Error.isIo_of_isRefusal h

/-- A change that fails has written some slots, or none. If it has, or if the file system has failed,
the tree is marked then. A tree that is not marked then has been read only, and so has every tree if
the change has been refused. A marked tree is only read, whatever is asked of it, and refuses every
change. -/
theorem unchanged_or_marked {c : Change} {t t' : Tree} {e : Error} (ht : t.Opened)
    (h : c.run t = .error (.error e) t') :
    (∃ k < 2 ^ 64, ∃ u, Writes k t u ∧
      t' = { u with needsRepair := t.needsRepair || decide (0 < k) || e.isIo }) ∧
    (t'.needsRepair = false → ∃ i j, t' = t.addReads i j) ∧
    (e = .needsRepair ∨ e.isRefusal = true ∨ c.Refused t → ∃ i j, t' = t.addReads i j) ∧
    (t'.needsRepair = true → ∀ requests : List Request,
      (∃ i j, Request.leave requests t' = t'.addReads i j) ∧
      ∀ c' : Change, c'.run (Request.leave requests t') =
        .error (.error .needsRepair) (Request.leave requests t')) := by
  obtain ⟨k, hk, u, hw, rfl, hrefused⟩ := exists_writes_of_failed ht h
  obtain ⟨hopened, -, hmark, -⟩ := hw.wrote ht
  have hread : k = 0 → e.isIo = false → ∃ i j,
      { u with needsRepair := t.needsRepair || decide (0 < k) || e.isIo } = t.addReads i j := by
    rintro rfl hio
    obtain ⟨i, j, rfl⟩ := hw.exists_addReads
    refine ⟨i, j, ?_⟩
    rw [hio, ← hmark]
    simp
  refine ⟨⟨k, hk, u, hw, rfl⟩, fun hrepair => ?_, fun hrefusal => ?_, fun hrepair requests => ?_⟩
  · simp only [Bool.or_eq_false_iff, decide_eq_false_iff_not] at hrepair
    exact hread (Nat.eq_zero_of_not_pos hrepair.1.2) hrepair.2
  · exact hread (hrefused hrefusal).1 (hrefused hrefusal).2
  · have hopened : Opened { u with needsRepair := t.needsRepair || decide (0 < k) || e.isIo } :=
      ⟨hopened.layout_eq, hopened.pages_le, hopened.unsized⟩
    obtain ⟨i, j, hleave⟩ := Request.exists_addReads requests hopened hrepair
    exact ⟨⟨i, j, hleave⟩, fun c' => c'.run_of_needsRepair (hleave ▸ hrepair)⟩

/-- A tree whose root is not in its file stays as it is, and so does one that has been marked. A tree
whose only leaf is its own parent is marked when its only key is deleted, after the record has gone. -/
theorem unchanged_or_marked_newStore :
    (∃ i j, (⟨newStore, .int32, ⟨1⟩, false⟩ : Tree) =
      (⟨newStore, .int32, ⟨1⟩, false⟩ : Tree).addReads i j) ∧
    (∀ (requests : List Request) (c : Change),
      c.run (Request.leave requests ⟨newStore, .int32, ⟨1⟩, true⟩) =
        .error (.error .needsRepair) (Request.leave requests ⟨newStore, .int32, ⟨1⟩, true⟩)) ∧
    ∃ (disk : Disk) (s s' : Store) (t t' : Tree) (id : RecordId) (r : Record) (e : Error),
      Store.openAt newStore.config disk = .ok s disk ∧ load s = .ok t s' ∧
      (Change.delete (.int32 7)).run t = .error (.error e) t' ∧
      t.view.record id = some r ∧ t'.view.record id = none ∧ t'.needsRepair = true ∧
      ∀ (requests : List Request) (c : Change), c.run (Request.leave requests t') =
        .error (.error .needsRepair) (Request.leave requests t') := by
  have hopened : ∀ b, Opened ⟨newStore, .int32, ⟨1⟩, b⟩ := fun b =>
    ⟨rfl, by show 0 * pageSize ≤ 2 ^ 63; decide, fun _ => rfl⟩
  have hlost : (Change.delete (.int32 7)).run ⟨newStore, .int32, ⟨1⟩, false⟩ =
      .error (.error (.slotOutOfBounds 1)) ⟨newStore, .int32, ⟨1⟩, false⟩ := rfl
  have hmarked : (Change.delete (.int32 7)).run ⟨newStore, .int32, ⟨1⟩, true⟩ =
      .error (.error .needsRepair) ⟨newStore, .int32, ⟨1⟩, true⟩ := rfl
  obtain ⟨disk, s, s', t, l, id, r, hopen, hload, hstep, ht, hintact, htype, htangled, hr⟩ :=
    exists_tangled_newStore
  obtain ⟨e, t', hrun, hgone⟩ := exists_delete_of_tangled hstep hintact htype htangled hr
  obtain ⟨-, hunmarked, -, hfrozen⟩ := unchanged_or_marked ht hrun
  have hmark : t'.needsRepair = true := by
    by_contra hne
    obtain ⟨i, j, rfl⟩ := hunmarked (Bool.eq_false_of_not_eq_true hne)
    exact absurd (hr.symm.trans hgone) (Option.some_ne_none r)
  refine ⟨(unchanged_or_marked (hopened false) hlost).2.1 rfl, fun requests c => ?_,
    disk, s, s', t, t', id, r, e, hopen, hload, hrun, hr, hgone, hmark, fun requests c => ?_⟩
  · exact ((unchanged_or_marked (hopened true) hmarked).2.2.2 rfl requests).2 c
  · exact (hfrozen hmark requests).2 c

end Tree
end RecordIndex
