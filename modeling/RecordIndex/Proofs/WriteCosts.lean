import RecordIndex.Proofs.Locality
import RecordIndex.Proofs.Root

/-!
# What a change costs

The slots that a change of a well-formed tree writes grow with the number of its levels. A change
that fails has written none, unless the file system has failed at a file that cannot become longer.

* `Change.writeLimit`: how many slots a change of a tree with some number of levels writes at most.
* `Change.writes_update`: an update that succeeds writes one slot.
* `Change.writes_failed`: what has been written by a change that fails.
* `Tree.write_cost`: what the counters of slots written say after a change.
-/

namespace RecordIndex

open RecordIndex.Action

namespace Change

variable {t t' : Tree} {c : Change}

/-- The most slots that a change of a tree with so many levels writes. -/
def writeLimit (levels : Nat) : Change → Nat
  | insert _ => 7 * levels + 2
  | update _ => 1
  | delete _ => max 2 (6 * levels - 6)

theorem cost_eq_writeLimit (c : Change) (H : Nat) : c.cost H = c.writeLimit (H + 1) := by
  cases c with
  | insert r => exact (by omega : 7 * H + 9 = 7 * (H + 1) + 2)
  | update r => rfl
  | delete key => exact (by omega : max 2 (6 * H) = max 2 (6 * (H + 1) - 6))

/-- Replacing a record writes the slot of the record and nothing else. -/
theorem writes_replaceRecord (ht : t.Opened) {r : Record}
    (h : Tree.replaceRecord r t = .ok () t') :
    t'.store.counters.writes = t.store.counters.writes + 1 := by
  rw [Tree.replaceRecord, run_bind] at h
  rcases Tree.findLeaf_cases ht r.key with ⟨leaf, i, j, hleaf⟩ | ⟨e, i, j, hleaf⟩ <;>
    rw [hleaf] at h
  · dsimp only at h
    cases hindex : Keys.indexOf? r.key leaf.keys with
    | none =>
      rw [hindex] at h
      cases h
    | some n =>
      rw [hindex] at h
      obtain ⟨id, u, hid, h⟩ := bind_eq_ok_iff.1 h
      obtain ⟨-, rfl⟩ := ofChecked_eq_ok_iff.1 hid
      have hopened : (t.addReads i j).Opened := ⟨ht.layout_eq, ht.pages_le, ht.unsized⟩
      exact ((Tree.whole_replaceRecord hopened id r).of_ok h).writes_eq
  · cases h

/-- An update that succeeds writes one slot. -/
theorem writes_update (ht : t.Opened) (hrepair : t.needsRepair = false) {r : Record}
    (h : (update r).run t = .ok () t') :
    t'.store.counters.writes = t.store.counters.writes + 1 := by
  rcases (update r).run_cases hrepair with ⟨e, -, hrun⟩ | ⟨-, hrun⟩ <;> rw [hrun] at h
  · cases h
  · cases hmake : (update r).make t with
    | ok a u =>
      rw [Tree.guarded, hmake] at h
      cases h
      exact writes_replaceRecord ht hmake
    | error e u =>
      rw [Tree.guarded, hmake] at h
      cases e <;> cases h

/-- A change that fails has written nothing, or the file system has failed since a file cannot
become longer. -/
theorem writes_failed (hstep : t.InStep) (hwell : t.WellFormed) (hrepair : t.needsRepair = false)
    {e : Failure} (h : c.run t = .error e t') :
    t'.store.counters.writes = t.store.counters.writes ∨
      (∃ cause, e = .error (.io cause)) ∧ t'.view.Full := by
  obtain ⟨d, hd⟩ := View.WellFormed.exists_represents hwell hrepair
  obtain ⟨o, v', ho, ⟨-, rfl⟩, hspares, houtcome, hleaves⟩ :=
    Call.ends_effect hd c.call t ⟨hstep, rfl⟩
  have hrun : c.call.run t = .error e t' := by rw [run_call, run_map, h]
  rw [hrun] at ho hspares houtcome hleaves
  cases o with
  | ok a => cases ho
  | error e' =>
    obtain rfl : e = .error e' := by
      cases ho
      rfl
    rcases houtcome with ⟨hrefused, -⟩ | ⟨⟨cause, hcause⟩, hmarked, -⟩
    · have hio := Error.isIo_of_isRefusal (Dictionary.isRefusal_of_apply hrefused.symm)
      obtain ⟨i, j, rfl⟩ := hspares e' rfl hio
      exact .inl rfl
    · cases hcause
      exact .inr ⟨⟨cause, rfl⟩, hleaves.full hmarked⟩

end Change

namespace Tree

/-- The counters of slots written grow by so many for a change of a well-formed tree: by at most
`7 * levels + 2` for an insertion, by at most `max 2 (6 * levels - 6)` for a deletion, by one for an
update that succeeds. They do not grow for a change that fails, unless the file system has failed at
a file that cannot become longer. -/
theorem write_cost {t : Tree} (hstep : t.InStep) (hwell : t.WellFormed)
    (hrepair : t.needsRepair = false) (c : Change) :
    ∃ levels : Nat, answer (height t) = .ok levels ∧
      (∃ k ≤ c.writeLimit levels, (finalState (c.run t)).store.counters.writes =
        t.store.counters.writes + UInt64.ofNat k) ∧
      (∀ r t', c = .update r → c.run t = .ok () t' →
        t'.store.counters.writes = t.store.counters.writes + 1) ∧
      ∀ e t', c.run t = .error e t' → t'.store.counters.writes = t.store.counters.writes ∨
        (∃ cause, e = .error (.io cause)) ∧ t'.view.Full := by
  obtain ⟨H, s, hs⟩ := id hwell
  refine ⟨H + 1, answer_height hs, ?_, ?_, fun e t' => Change.writes_failed hstep hwell hrepair⟩
  · obtain ⟨k, hk, u, marked, hw, hfinal⟩ :=
      c.exists_writesIn hstep hs (c.admits_zone hs t.valid_view) (Nat.le_refl _)
    rw [hfinal]
    exact ⟨k, c.cost_eq_writeLimit H ▸ hk, (hw.wrote hstep.opened).2.1⟩
  · rintro r t' rfl h
    exact Change.writes_update hstep.opened hrepair h

/-- Six records in a tree of two levels, of which the last one has split the root. One is replaced,
one is not there to be deleted, and one is deleted, so that the root gives way. -/
theorem write_cost_newStore : ∃ t t' : Tree,
    finalState ((Change.insert (scored 6 0)).run t) = t' ∧
    (∃ k ≤ 9, t'.store.counters.writes = t.store.counters.writes + UInt64.ofNat k) ∧
    (∃ u, (Change.update (scored 3 7)).run t' = .ok () u ∧
      u.store.counters.writes = t'.store.counters.writes + 1) ∧
    (∃ e u, (Change.delete (.int32 7)).run t' = .error e u ∧
      u.store.counters.writes = t'.store.counters.writes) ∧
    ∃ u, finalState ((Change.delete (.int32 1)).run t') = u ∧ answer (height u) = .ok 1 ∧
      ∃ k ≤ 6, u.store.counters.writes = t'.store.counters.writes + UInt64.ofNat k := by
  obtain ⟨t, t', t'', ht', ht'', ⟨hfive, hone⟩, ⟨hsix, htwo, hshort⟩, hone'⟩ :=
    exists_split_newStore
  obtain ⟨levels, hlevels, hinsert, -⟩ :=
    write_cost hfive.inStep hfive.view.wellFormed hfive.view.intact (.insert (scored 6 0))
  cases hlevels.symm.trans hone
  have hcost := write_cost hsix.inStep hsix.view.wellFormed hsix.view.intact
  obtain ⟨-, -, -, hupdate, -⟩ := hcost (.update (scored 3 7))
  obtain ⟨-, -, -, -, hfailed⟩ := hcost (.delete (.int32 7))
  obtain ⟨levels, hlevels, hdelete, -⟩ := hcost (.delete (.int32 1))
  cases hlevels.symm.trans htwo
  obtain ⟨u, hu⟩ := hsix.change_ok (hshort (.update (scored 3 7))) (by decide)
  obtain ⟨w, hw⟩ := hsix.change_error (e := .notFound (.int32 7)) (hshort (.delete (.int32 7)))
    (by decide)
  rw [ht'] at hinsert
  rw [ht''] at hdelete
  refine ⟨t, t', ht', hinsert, ⟨u, hu, hupdate _ _ rfl hu⟩, ⟨_, w, hw, ?_⟩, t'', ht'', hone', hdelete⟩
  exact (hfailed _ _ hw).resolve_right fun ⟨⟨_, hcause⟩, _⟩ => by cases hcause

end Tree
end RecordIndex
