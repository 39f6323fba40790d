import RecordIndex.Proofs.Damage.Requests

/-!
# How long the walks are

The walks of a tree are given up after one round more than there are pages. They never come that far:
where the child links lead round in no circle, a way down and a way up take at most one round for each
page that there was before the request, wherever the parent links lead.

* `Tree.rounds_le_pageCount`: with a limit that is not below the number of pages, the operations end as
  they do without.
-/

namespace RecordIndex

open RecordIndex.Action

namespace Tree

variable {t : Tree}

/-! ### Limits that make no difference -/

/-- The number of rounds is enough: one for each page, and one to look at the root in any case. -/
def Ample (t : Tree) (limit : Nat) : Prop := 0 < limit ∧ t.pageCount.toNat ≤ limit

theorem ample_stepLimit (t : Tree) : t.Ample t.stepLimit := ⟨Nat.succ_pos _, Nat.le_succ _⟩

/-- If no ample limit makes a walk fail with a fault, they all make it end in the same way. -/
theorem eq_of_ample {α : Type} {Q : α → Tree → Prop} (walk : Nat → TreeAction α)
    (hmono : ∀ {k limit : Nat}, k ≤ limit → Outlasts (walk limit) (walk k) t)
    (hsafe : ∀ {limit : Nat}, t.Ample limit → Safe (walk limit) t Q)
    {m n : Nat} (hm : t.Ample m) (hn : t.Ample n) : walk m t = walk n t := by
  rcases Nat.le_total m n with hle | hle
  · exact (hmono hle ((hsafe hm).ne_fault _)).symm
  · exact hmono hle ((hsafe hn).ne_fault _)

section

variable (ht : t.Paged) (hacyclic : t.Acyclic) {limit : Nat} (hlimit : t.Ample limit)
include ht hacyclic hlimit

theorem findLeafWithin_eq (key : Field) : findLeafWithin limit key t = findLeaf key t :=
  eq_of_ample (fun n => findLeafWithin n key) (fun h => outlasts_findLeafWithin h key t)
    (fun h => safe_findLeafWithin ht hacyclic (shownBelow_of_le h.1 h.2) key) hlimit
    t.ample_stepLimit

theorem heightWithin_eq : heightWithin limit t = height t :=
  eq_of_ample heightWithin (fun h => outlasts_heightWithin h t)
    (fun h => safe_heightWithin ht hacyclic (shownBelow_of_le h.1 h.2)) hlimit t.ample_stepLimit

theorem addRecordWithin_eq {r : Record} (hr : r.validate = .ok ()) :
    addRecordWithin limit r t = addRecord r t := by
  rw [addRecord_eq]
  exact eq_of_ample (fun n => addRecordWithin n r)
    (fun h => outlasts_addRecordWithin h r t)
    (fun h => safe_addRecordWithin ht hacyclic h.1 h.2 hr) hlimit t.ample_stepLimit

theorem removeKeyWithin_eq (key : Field) : removeKeyWithin limit key t = removeKey key t := by
  rw [removeKey_eq]
  exact eq_of_ample (fun n => removeKeyWithin n key)
    (fun h => outlasts_removeKeyWithin h key t)
    (fun h => safe_removeKeyWithin ht hacyclic (shownBelow_of_le h.1 h.2) key) hlimit
    t.ample_stepLimit

end

/-- A change is what is made of it, if it is not refused. -/
theorem guarded_eq_run {c : Change} {x : TreeAction Unit}
    (hx : ¬ c.Refused t → x t = c.make t) :
    (requireIntact >>= fun _ => c.check >>= fun _ => guarded x) t = c.run t := by
  rw [c.run_eq]
  refine bind_congr_ok fun _ t₁ hintact => bind_congr_ok fun _ t₂ hcheck => ?_
  have hsame : t₁ = t := by
    unfold requireIntact at hintact
    obtain ⟨_, _, hget, h⟩ := bind_eq_ok_iff.1 hintact
    cases hget
    split_ifs at h
    · cases h
    · exact (pure_eq_ok_iff.1 h).2.symm
  rw [hsame] at hcheck
  obtain ⟨rfl, hnot⟩ := (c.whole_check t).of_ok hcheck
  rw [guarded, guarded, hx hnot]

theorem insertWithin_eq (ht : t.Paged) (hacyclic : t.Acyclic) {limit : Nat} (hlimit : t.Ample limit)
    (r : Record) : insertWithin limit r t = insert r t :=
  guarded_eq_run (c := .insert r) fun h =>
    addRecordWithin_eq ht hacyclic hlimit (by_contra fun hr => h (.inr (.inl hr)))

theorem deleteWithin_eq (ht : t.Paged) (hacyclic : t.Acyclic) {limit : Nat} (hlimit : t.Ample limit)
    (key : Field) : deleteWithin limit key t = delete key t :=
  guarded_eq_run (c := .delete key) fun _ => removeKeyWithin_eq ht hacyclic hlimit key

/-- Where the child links lead round in no circle, the search for a leaf, the height, an insertion and
a deletion end without a fault, whatever else the files hold and wherever the parent links lead. Each
of their walks takes at most as many rounds as there are pages before the request: if it is given
that many, or any larger number, the operation ends as it does without that limit. (The one round that
has to be allowed besides, for a tree without pages, is not needed in a tree that has been opened:
`pageCount_pos_of_load`.) -/
theorem rounds_le_pageCount (ht : t.Paged) (hacyclic : t.Acyclic) {limit : Nat} (hpos : 0 < limit)
    (hlimit : t.pageCount.toNat ≤ limit) :
    (∀ key, findLeafWithin limit key t = findLeaf key t ∧
      ∀ f, answer (findLeaf key t) ≠ .error (.fault f)) ∧
    (heightWithin limit t = height t ∧ ∀ f, answer (height t) ≠ .error (.fault f)) ∧
    (∀ r, insertWithin limit r t = insert r t ∧
      ∀ f, answer (insert r t) ≠ .error (.fault f)) ∧
    ∀ key, deleteWithin limit key t = delete key t ∧
      ∀ f, answer (delete key t) ≠ .error (.fault f) := by
  have hample : t.Ample limit := ⟨hpos, hlimit⟩
  refine ⟨fun key => ⟨?_, ?_⟩, ⟨?_, ?_⟩, fun r => ⟨?_, ?_⟩, fun key => ⟨?_, ?_⟩⟩
  · exact findLeafWithin_eq ht hacyclic hample key
  · exact (safe_findLeaf ht hacyclic key).ne_fault
  · exact heightWithin_eq ht hacyclic hample
  · exact (safe_height ht hacyclic).ne_fault
  · exact insertWithin_eq ht hacyclic hample r
  · exact ((Change.insert r).safe_run ht hacyclic).ne_fault
  · exact deleteWithin_eq ht hacyclic hample key
  · exact ((Change.delete key).safe_run ht hacyclic).ne_fault

/-- Two rounds are enough for a tree of two pages, although the child links of its root lead to the
header page. -/
theorem rounds_le_pageCount_strayTree : ∃ (disk : Disk) (s s' : Store) (t : Tree),
    Store.openAt newStore.config disk = .ok s disk ∧ load s = .ok t s' ∧
    t.view = strayTree.view ∧ t.Paged ∧ t.Acyclic ∧ t.pageCount.toNat = 2 ∧
    insertWithin 2 ⟨.int32 7, ⟨[]⟩⟩ t = insert ⟨.int32 7, ⟨[]⟩⟩ t ∧
    deleteWithin 2 (.int32 7) t = delete (.int32 7) t ∧ heightWithin 2 t = height t := by
  obtain ⟨disk, s, s', t, hopen, hload, hview, hpaged, hacyclic⟩ := exists_load_strayTree
  have hcount : t.pageCount.toNat = 2 := congrArg View.pageCount hview
  obtain ⟨-, ⟨hheight, -⟩, hinsert, hdelete⟩ :=
    rounds_le_pageCount hpaged hacyclic (pageCount_pos_of_load hload) (Nat.le_refl _)
  rw [hcount] at hheight hinsert hdelete
  exact ⟨disk, s, s', t, hopen, hload, hview, hpaged, hacyclic, hcount, (hinsert _).1,
    (hdelete _).1, hheight⟩

end Tree

end RecordIndex
