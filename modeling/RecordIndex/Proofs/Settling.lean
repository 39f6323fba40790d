import RecordIndex.Proofs.Edits

/-!
# Pages that a tree takes and gives up

A change that takes a tree from some pages to others leaves no node behind (`View.Settles`): the
pages outside stay as they are, there is none left on a page that the tree gives up, and the only
pages that it takes are new ones.

* `View.Settles.trans`: one change after the other.
* `View.settles_of_pageCount_eq` and `View.settles_of_grown`: a change that adds no page, and one
  that adds a page.
* `Shape.Stored.unique`: the nodes on the pages leave no choice of the shape.
* `View.Tidy`: nothing has been left behind. `View.Tidy.addRecord` and its like say that nothing is
  left behind by a change.
* `View.Retires`: what is no longer in use is not used again.
-/

namespace RecordIndex

/-- A change takes a tree on the pages `ps` to one on the pages `ps'`. It leaves the pages outside
alone, no page that it gives up keeps its node, and every page that it takes is new. -/
structure View.Settles (v v' : View) (ps ps' : List PageId) : Prop where
  untouched : ∀ p, v.HasPage p → p ∉ ps → v'.node p = v.node p
  vacated : ∀ p, v'.HasPage p → p ∉ ps' → (v.HasPage p → p ∈ ps) → v'.node p = none
  fresh : ∀ p ∈ ps', v.HasPage p → p ∈ ps

/-- No node comes to a page that is there and has none. -/
def View.LeavesVacant (v v' : View) : Prop := ∀ p, v.HasPage p → v.node p = none → v'.node p = none

/-- No page and no record slot is taken away, and none that is there and not in use comes into use. -/
structure View.Retires (v v' : View) : Prop where
  pageCount_le : v.pageCount ≤ v'.pageCount
  recordCount_le : v.recordCount ≤ v'.recordCount
  node : v.LeavesVacant v'
  record : ∀ id : RecordId, id.number.toNat < v.recordCount → v.record id = none →
    v'.record id = none

/-- There are no nodes but those of the tree, and no records but those that its entries lead to. -/
structure View.Tidy (v : View) {h : Nat} (s : Shape h) : Prop where
  node : ∀ p, v.HasPage p → p ∉ s.pages → v.node p = none
  record : ∀ id : RecordId, id.number.toNat < v.recordCount → id ∉ s.entries.map Prod.snd →
    v.record id = none

namespace View

variable {v v' v'' : View} {ps ps' ps'' : List PageId}

theorem Settles.trans (h : v.Settles v' ps ps') (h' : v'.Settles v'' ps' ps'')
    (hkeep : v.Keeps v') : v.Settles v'' ps ps'' where
  untouched p hp hps := by
    rw [h'.untouched p (hkeep.hasPage hp) fun hps' => hps (h.fresh p hps' hp), h.untouched p hp hps]
  vacated p hp hps'' hold := by
    -- the page is given up by the second change, or it has been by the first
    by_cases hlast : v'.HasPage p ∧ p ∉ ps'
    · rw [h'.untouched p hlast.1 hlast.2]
      exact h.vacated p hlast.1 hlast.2 hold
    · exact h'.vacated p hp hps'' fun hp' => by_contra fun hps' => hlast ⟨hp', hps'⟩
  fresh p hps'' hp := h.fresh p (h'.fresh p hps'' (hkeep.hasPage hp)) hp

theorem Settles.congr (h : v.Settles v' ps ps') {qs qs' : List PageId}
    (hq : ∀ p, p ∈ ps ↔ p ∈ qs) (hq' : ∀ p, p ∈ ps' ↔ p ∈ qs') : v.Settles v' qs qs' where
  untouched p hp hqs := h.untouched p hp fun hps => hqs ((hq p).1 hps)
  vacated p hp hqs hold :=
    h.vacated p hp (fun hps => hqs ((hq' p).1 hps)) fun hp => (hq p).2 (hold hp)
  fresh p hqs hp := (hq p).1 (h.fresh p ((hq' p).2 hqs) hp)

/-- A record that is written before makes no difference to the pages. -/
theorem Settles.of_addRecord {r : Record} (h : (v.addRecord r).Settles v' ps ps') :
    v.Settles v' ps ps' :=
  ⟨h.untouched, h.vacated, h.fresh⟩

theorem Settles.of_setRecord {id : RecordId} {o : Option Record}
    (h : (v.setRecord id o).Settles v' ps ps') : v.Settles v' ps ps' :=
  ⟨h.untouched, h.vacated, h.fresh⟩

theorem leavesVacant_refl (v : View) : v.LeavesVacant v := fun _ _ h => h

theorem LeavesVacant.trans (h : v.LeavesVacant v') (h' : v'.LeavesVacant v'')
    (hkeep : v.Keeps v') : v.LeavesVacant v'' := fun p hp hnone =>
  h' p (hkeep.hasPage hp) (h p hp hnone)

/-- A tree has nodes on all of its pages, so that it takes no page that has none. -/
theorem Settles.leavesVacant (h : v.Settles v' ps ps') (hps : ∀ p ∈ ps, ∃ n, v.node p = some n) :
    v.LeavesVacant v' := by
  intro p hp hnone
  refine (h.untouched p hp fun hmem => ?_).trans hnone
  obtain ⟨n, hn⟩ := hps p hmem
  cases hn.symm.trans hnone

/-- A change that adds no page. -/
theorem settles_of_pageCount_eq (hcount : v'.pageCount = v.pageCount) (hsub : ps' ⊆ ps)
    (hsame : ∀ p, v.HasPage p → p ∉ ps → v'.node p = v.node p)
    (hdrop : ∀ p ∈ ps, p ∉ ps' → v'.node p = none) : v.Settles v' ps ps' where
  untouched := hsame
  vacated p hp hps' hold := hdrop p (hold ⟨hp.1, hcount ▸ hp.2⟩) hps'
  fresh _ hps' _ := hsub hps'

/-- A change that only writes nodes of the tree. -/
theorem settles_of_within (hcount : v'.pageCount = v.pageCount)
    (hsame : ∀ p, v.HasPage p → p ∉ ps → v'.node p = v.node p) : v.Settles v' ps ps :=
  settles_of_pageCount_eq hcount (List.Subset.refl ps) hsame fun _ hp hnot => absurd hp hnot

theorem settles_put (v : View) {n : Node} (hn : n.page ∈ ps) : v.Settles (v.put n) ps ps := by
  refine settles_of_within rfl fun p _ hp => ?_
  rw [node_put, if_neg]
  rintro rfl
  exact hp hn

/-- A node of the tree is written. -/
theorem settles_put_plug (v : View) {H h : Nat} (r : Route H h) (s : Shape h) {n : Node}
    (hn : n.page = s.page) : v.Settles (v.put n) (r.plug s).pages (r.plug s).pages := by
  refine settles_put v ((Route.pages_plug r s).mem_iff.2 (List.mem_append_right _ ?_))
  exact hn ▸ s.page_mem_pages

/-- A change that adds a page, which the tree takes. -/
theorem settles_of_grown {q : PageId} (hcount : v'.pageCount = v.pageCount + 1)
    (hq : q.number.toNat = v.pageCount) (hps : ∀ p, p ∈ ps' ↔ p = q ∨ p ∈ ps)
    (hsame : ∀ p, v.HasPage p → p ∉ ps → v'.node p = v.node p) : v.Settles v' ps ps' where
  untouched := hsame
  vacated p hp hps' hold := by
    obtain ⟨hne, hold'⟩ := not_or.1 (mt (hps p).2 hps')
    have hlt : p.number.toNat < v.pageCount + 1 := hcount ▸ hp.2
    have hnumber : p.number.toNat ≠ v.pageCount := fun he =>
      hne (congrArg PageId.mk (UInt64.toNat_inj.1 (he.trans hq.symm)))
    exact absurd (hold ⟨hp.1, by omega⟩) hold'
  fresh p hps' hp := ((hps p).1 hps').resolve_left (hp.ne_next hq)

end View

namespace Shape

variable {look : PageId → Option Node} {keyType : FieldType}

/-- Trees side by side below the same pages. -/
theorem flatMap_eq_of_map_page_eq {h h' : Nat} {α : Type} {f : Shape h → List α}
    {g : Shape h' → List α} {cs : List (Shape h)} {ds : List (Shape h')}
    (hpage : cs.map page = ds.map page)
    (heq : ∀ c ∈ cs, ∀ d ∈ ds, c.page = d.page → f c = g d) : cs.flatMap f = ds.flatMap g := by
  induction cs generalizing ds with
  | nil => rw [List.map_eq_nil_iff.1 hpage.symm, List.flatMap_nil, List.flatMap_nil]
  | cons c cs ih =>
    cases ds with
    | nil => cases hpage
    | cons d ds =>
      obtain ⟨hhead, htail⟩ := List.cons.inj hpage
      rw [List.flatMap_cons, List.flatMap_cons, heq c List.mem_cons_self d List.mem_cons_self hhead]
      congr 1
      exact ih htail fun c hc d hd => heq c (List.mem_cons_of_mem _ hc) d (List.mem_cons_of_mem _ hd)

/-- What is stored below a page has the same pages and entries, however it is looked at. -/
theorem Stored.unique {h h' : Nat} {s : Shape h} {s' : Shape h'} {parent parent' : Option PageId}
    (hs : s.Stored look keyType parent) (hs' : s'.Stored look keyType parent')
    (hpage : s.page = s'.page) : s.pages = s'.pages ∧ s.entries = s'.entries := by
  induction h generalizing h' parent parent' with
  | zero =>
    have hnode : some (s.node keyType parent) = some (s'.node keyType parent') := by
      rw [← hs.1, ← hs'.1, hpage]
    cases h' with
    | zero =>
      obtain ⟨-, -, -, hkeys, hrecords⟩ := Leaf.mk.inj (Node.leaf.inj (Option.some.inj hnode))
      refine ⟨congrArg (fun p => [p]) hpage, ?_⟩
      calc s.entries = (s.entries.map Prod.fst).zip (s.entries.map Prod.snd) :=
            (List.zip_of_prod rfl rfl)
        _ = (s'.entries.map Prod.fst).zip (s'.entries.map Prod.snd) := congrArg₂ List.zip hkeys hrecords
        _ = s'.entries := (List.zip_of_prod rfl rfl).symm
    | succ h' => cases hnode
  | succ h ih =>
    have hnode : some (s.node keyType parent) = some (s'.node keyType parent') := by
      rw [← hs.1, ← hs'.1, hpage]
    cases h' with
    | zero => cases hnode
    | succ h' =>
      obtain ⟨-, -, -, -, hkids⟩ := Internal.mk.inj (Node.internal.inj (Option.some.inj hnode))
      have hbelow : ∀ c ∈ Fork.kids s, ∀ d ∈ Fork.kids s', c.page = d.page →
          c.pages = d.pages ∧ c.entries = d.entries :=
        fun c hc d hd => ih (hs.2 c hc) (hs'.2 d hd)
      rw [pages_eq, pages_eq s', hpage]
      refine ⟨congrArg (s'.page :: ·) ?_, ?_⟩
      · exact flatMap_eq_of_map_page_eq hkids fun c hc d hd he => (hbelow c hc d hd he).1
      · exact flatMap_eq_of_map_page_eq hkids fun c hc d hd he => (hbelow c hc d hd he).2

end Shape

namespace View

variable {v v' v'' : View}

/-! ### Tidy trees -/

theorem Retires.refl (v : View) : v.Retires v :=
  ⟨Nat.le_refl _, Nat.le_refl _, leavesVacant_refl v, fun _ _ h => h⟩

theorem Retires.trans (h : v.Retires v') (h' : v'.Retires v'') : v.Retires v'' where
  pageCount_le := Nat.le_trans h.pageCount_le h'.pageCount_le
  recordCount_le := Nat.le_trans h.recordCount_le h'.recordCount_le
  node p hp hnone :=
    h'.node p ⟨hp.1, Nat.lt_of_lt_of_le hp.2 h.pageCount_le⟩ (h.node p hp hnone)
  record id hid hnone :=
    h'.record id (Nat.lt_of_lt_of_le hid h.recordCount_le) (h.record id hid hnone)

/-- A record comes to a slot that has not been there. -/
theorem retires_addRecord {r : Record} (hid : v.nextRecord.number.toNat = v.recordCount)
    (hkeep : (v.addRecord r).Keeps v') (hvacant : v.LeavesVacant v') : v.Retires v' where
  pageCount_le := hkeep.pageCount_le
  recordCount_le := hkeep.recordCount ▸ Nat.le_succ _
  node := hvacant
  record id hlt hnone := by
    have hne : id ≠ v.nextRecord := by
      rintro rfl
      exact absurd hlt (Nat.not_lt.2 hid.ge)
    rw [hkeep.record]
    exact (Function.update_of_ne hne ..).trans hnone

/-- The record in a slot that is in use is another one then, or none. -/
theorem retires_setRecord {id : RecordId} {o : Option Record} (hid : v.record id ≠ none)
    (hkeep : (v.setRecord id o).Keeps v') (hvacant : v.LeavesVacant v') : v.Retires v' where
  pageCount_le := hkeep.pageCount_le
  recordCount_le := hkeep.recordCount.ge
  node := hvacant
  record id' _ hnone := by
    have hne : id' ≠ id := by
      rintro rfl
      exact hid hnone
    rw [hkeep.record]
    exact (Function.update_of_ne hne ..).trans hnone

section

variable {h h' : Nat} {s : Shape h} {s' : Shape h'}

/-- It does not matter how the tree is looked at. -/
theorem Tidy.congr (ht : v.Tidy s) (hs : v.HasShape s) (hs' : v.HasShape s') : v.Tidy s' := by
  obtain ⟨hpages, hentries⟩ := hs.stored.unique hs'.stored (hs.root_eq.symm.trans hs'.root_eq)
  refine ⟨fun p hp hmem => ht.node p hp ?_, fun id hid hmem => ht.record id hid ?_⟩
  · rwa [hpages]
  · rwa [hentries]

/-- A tidy tree has no other nodes then either. -/
theorem Settles.node_eq_none (hset : v.Settles v' s.pages s'.pages) (ht : v.Tidy s) {p : PageId}
    (hp : v'.HasPage p) (hmem : p ∉ s'.pages) : v'.node p = none := by
  by_cases hold : v.HasPage p ∧ p ∉ s.pages
  · rw [hset.untouched p hold.1 hold.2]
    exact ht.node p hold.1 hold.2
  · exact hset.vacated p hp hmem fun hpage => by_contra fun hnot => hold ⟨hpage, hnot⟩

/-- A tree with one more entry, for the record that has come. -/
theorem Tidy.addRecord {r : Record} (ht : v.Tidy s) (hkeep : (v.addRecord r).Keeps v')
    (hset : v.Settles v' s.pages s'.pages)
    (hentries : ∀ e, e ∈ s'.entries ↔ e = (r.key, v.nextRecord) ∨ e ∈ s.entries) : v'.Tidy s' where
  node _ hp hmem := hset.node_eq_none ht hp hmem
  record id hid hmem := by
    have hout : ∀ e, (e = (r.key, v.nextRecord) ∨ e ∈ s.entries) → e.2 ≠ id := by
      rintro e he rfl
      exact hmem (List.mem_map_of_mem ((hentries e).2 he))
    have hne : id ≠ v.nextRecord := (hout _ (.inl rfl)).symm
    rw [hkeep.record]
    refine (Function.update_of_ne hne ..).trans (ht.record id ?_ fun hold => ?_)
    · -- the last slot is the new one
      rw [hkeep.recordCount] at hid
      refine Nat.lt_of_le_of_ne (Nat.le_of_lt_succ hid) fun heq => hne ?_
      rw [nextRecord, ← heq, UInt64.ofNat_toNat]
    · obtain ⟨e, he, heq⟩ := List.mem_map.1 hold
      exact hout e (.inr he) heq

/-- A tree with another record for an entry. -/
theorem Tidy.replaceRecord {k : Field} {id : RecordId} {r : Record} (ht : v.Tidy s)
    (he : (k, id) ∈ s.entries) : (v.setRecord id (some r)).Tidy s where
  node := ht.node
  record id' hid hmem := by
    have hne : id' ≠ id := by
      rintro rfl
      exact hmem (List.mem_map_of_mem he)
    exact (Function.update_of_ne hne ..).trans (ht.record id' hid hmem)

/-- A tree without the entry of a key, and without its record. -/
theorem Tidy.eraseRecord {key : Field} {id : RecordId} (ht : v.Tidy s)
    (hkey : ∀ id', (key, id') ∈ s.entries → id' = id) (hkeep : (v.setRecord id none).Keeps v')
    (hset : v.Settles v' s.pages s'.pages)
    (hentries : ∀ e, e ∈ s'.entries ↔ e ∈ s.entries ∧ e.1 ≠ key) : v'.Tidy s' where
  node _ hp hmem := hset.node_eq_none ht hp hmem
  record id' hid hmem := by
    rw [hkeep.record]
    by_cases hsame : id' = id
    · rw [hsame]
      exact Function.update_self ..
    · refine (Function.update_of_ne hsame ..).trans (ht.record id' ?_ fun hold => ?_)
      · rwa [hkeep.recordCount] at hid
      · obtain ⟨⟨k, id''⟩, he, rfl⟩ := List.mem_map.1 hold
        refine hmem (List.mem_map_of_mem ((hentries _).2 ⟨he, ?_⟩))
        rintro rfl
        exact hsame (hkey _ he)

end

end View
end RecordIndex
