import RecordIndex.Proofs.Damage.Deletion
import RecordIndex.Proofs.Damage.Insertion
import RecordIndex.Proofs.Damage.Walk
import RecordIndex.Proofs.Failures
import RecordIndex.Proofs.Loading

/-!
# Requests to a damaged tree

Whatever the files hold, as long as no child links lead round in a circle, a request is answered or
fails with an error, and a change leaves the header page in order.

* `Request.safe_run`: every request is harmless.
* `Tree.header_names_root`: page 0 goes on naming the root, which is another page.
* `Request.answer_ne_fault`: no request meets a fault.
-/

namespace RecordIndex

open RecordIndex.Action

namespace Tree

variable {t t' : Tree}

/-- Whether the tree waits to be repaired has nothing to do with its pages. -/
theorem Leads.setNeedsRepair (h : t.Leads t') (b : Bool) : t.Leads { t' with needsRepair := b } :=
  ⟨h.paged, h.keyType_eq, h.readable, h.complete, h.headed, h.headerPage⟩

theorem safe_guarded {x : TreeAction Unit} (h : Safe x t fun _ _ => True) :
    Safe (guarded x) t fun _ _ => True := by
  unfold Safe Concludes guarded
  cases hx : x t with
  | ok a t' =>
    obtain ⟨hleads, -⟩ := Concludes.of_ok h hx
    exact ⟨hleads, trivial⟩
  | error e t' =>
    obtain ⟨hleads, he⟩ := Concludes.of_error h hx
    cases e with
    | error e => exact ⟨hleads.setNeedsRepair _, he⟩
    | fault f => exact ⟨hleads, he⟩

theorem Safe.leads_finalState {α : Type} {x : TreeAction α} {Q : α → Tree → Prop} (h : Safe x t Q) :
    t.Leads (finalState (x t)) := by
  cases hx : x t with
  | ok a t' => exact (Concludes.of_ok h hx).1
  | error e t' => exact (Concludes.of_error h hx).1

section

variable (ht : t.Paged) (hacyclic : t.Acyclic)
include ht

theorem safe_requireKeyType (key : Field) : Safe (requireKeyType key) t fun _ t' => t' = t := by
  refine safe_get_bind ?_
  dsimp only
  split_ifs
  · exact safe_pure ht rfl
  · exact safe_fail ht _

include hacyclic

/-- The record of a key that has been found. -/
theorem safe_replaceRecord {r : Record} (hr : r.validate = .ok ()) :
    Safe (replaceRecord r) t fun _ _ => True := by
  refine (safe_findLeaf ht hacyclic r.key).bind fun leaf t₁ ht₁ ⟨_, hnode⟩ => ?_
  cases hindex : Keys.indexOf? r.key leaf.keys with
  | none => exact safe_fail ht₁.paged _
  | some i =>
    have hleaf := leaf_sound hnode
    refine (safe_ofChecked ht₁.paged (hleaf.exists_record hindex)).bind ?_
    rintro id t₁ - ⟨rfl, -⟩
    exact (safe_onRecords ht₁.paged (RecordFile.faultless_replace hr id)).mono
      fun _ _ _ _ => trivial

theorem safe_lookup (key : Field) : Safe (lookup key) t fun _ _ => True := by
  refine (safe_requireKeyType ht key).bind ?_
  rintro - t - rfl
  refine (safe_findLeaf ht hacyclic key).bind fun leaf t₁ ht₁ ⟨_, hnode⟩ => ?_
  cases hindex : Keys.indexOf? key leaf.keys with
  | none => exact safe_pure ht₁.paged trivial
  | some i =>
    have hleaf := leaf_sound hnode
    refine (safe_ofChecked ht₁.paged (hleaf.exists_record hindex)).bind ?_
    rintro id t₁ - ⟨rfl, -⟩
    refine (safe_onRecords ht₁.paged (RecordFile.faultless_fetch id)).bind fun r t₂ ht₂ _ => ?_
    split_ifs
    · exact safe_pure ht₂.paged trivial
    · exact safe_fail ht₂.paged _

theorem safe_contains (key : Field) : Safe (contains key) t fun _ _ => True := by
  refine (safe_requireKeyType ht key).bind ?_
  rintro - t - rfl
  exact (safe_findLeaf ht hacyclic key).bind fun leaf t₁ ht₁ _ => safe_pure ht₁.paged trivial

end

end Tree

section

variable {t : Tree} (ht : t.Paged) (hacyclic : t.Acyclic)
include ht hacyclic

theorem Change.safe_make {c : Change} (h : ¬ c.Refused t) : Tree.Safe c.make t fun _ _ => True := by
  cases c with
  | insert r => exact Tree.safe_addRecord ht hacyclic (by_contra fun hr => h (.inr (.inl hr)))
  | update r => exact Tree.safe_replaceRecord ht hacyclic (by_contra fun hr => h (.inr (.inl hr)))
  | delete key => exact Tree.safe_removeKey ht hacyclic key

theorem Change.safe_run (c : Change) : Tree.Safe c.run t fun _ _ => True := by
  cases hrepair : t.needsRepair with
  | true =>
    rw [Tree.Safe, Concludes, c.run_of_needsRepair hrepair]
    exact ⟨.refl ht, _, rfl⟩
  | false =>
    rcases c.run_cases hrepair with ⟨e, -, hrun⟩ | ⟨hnot, hrun⟩
    · rw [Tree.Safe, Concludes, hrun]
      exact ⟨.refl ht, e, rfl⟩
    · rw [Tree.Safe, Concludes, hrun]
      exact Tree.safe_guarded (c.safe_make ht hacyclic hnot)

theorem Question.safe_run (q : Question) : Tree.Safe q.run t fun _ _ => True := by
  cases q with
  | find key => exact (Tree.safe_lookup ht hacyclic key).map
  | contains key => exact (Tree.safe_contains ht hacyclic key).map
  | isEmpty => exact ((Tree.safe_isEmpty ht).mono fun _ _ _ _ => trivial).map
  | leaf key => exact ((Tree.safe_findLeaf ht hacyclic key).mono fun _ _ _ _ => trivial).map
  | height => exact ((Tree.safe_height ht hacyclic).mono fun _ _ _ _ => trivial).map
  | node p => exact ((Tree.safe_fetchNode ht p).mono fun _ _ _ _ => trivial).map
  | audit => exact (Tree.safe_audit ht).map

theorem Request.safe_run (r : Request) : Tree.Safe r.run t fun _ _ => True := by
  cases r with
  | change c => exact c.safe_run ht hacyclic
  | question q => exact q.safe_run ht hacyclic

end

/-! ### A tree with a stray link -/

/-- A root whose children are both on page 0. -/
def strayRoot : Internal := ⟨⟨1⟩, none, .int32, [.int32 7], [.header, .header]⟩

/-- The page of that root. -/
def strayPage : Page := (Node.internal strayRoot).toPage.toOption.getD .zero

/-- A tree with this root and a header page that names it. -/
def strayTree : Tree where
  store := { newStore with
    index := ⟨"i", ⟨0⟩, .ofBytes ((HeaderPage.toPage ⟨.int32, ⟨1⟩⟩).bytes ++ strayPage.bytes),
      some PageFile.layout, 2, .zero⟩ }
  keyType := .int32
  root := ⟨1⟩
  needsRepair := false

theorem ofPage_strayPage : Node.ofPage strayPage = .ok (.internal strayRoot) := by
  have henc : (Node.internal strayRoot).Encodable := ⟨by decide, by decide, rfl⟩
  obtain ⟨page, hpage, hof⟩ := Node.exists_toPage henc
  rw [strayPage, hpage]
  exact hof

theorem holds_strayTree : strayTree.store.index.Holds PageFile.layout []
    [(HeaderPage.toPage ⟨.int32, ⟨1⟩⟩).bytes, strayPage.bytes] := by
  refine ⟨rfl, ?_, rfl, ?_, rfl, by decide, by decide, by decide⟩
  · simp [strayTree]
  · simp [Page.length_eq]
    rfl

theorem inStep_strayTree : strayTree.InStep := ⟨⟨_, holds_strayTree⟩, .unset rfl rfl rfl⟩

theorem paged_strayTree : strayTree.Paged := inStep_strayTree.opened.paged

theorem page?_strayTree (p : PageId) : PageFile.page? strayTree.store.index p =
    ([(HeaderPage.toPage ⟨.int32, ⟨1⟩⟩).bytes, strayPage.bytes][p.number.toNat]?).bind
      fun b => (Page.ofBytes b).toOption :=
  Tree.page?_of_holds holds_strayTree p

theorem headerPage_strayTree : PageFile.page? strayTree.store.index .header =
    some (HeaderPage.toPage ⟨.int32, ⟨1⟩⟩) := by
  rw [page?_strayTree, show PageId.header.number.toNat = 0 from rfl, List.getElem?_cons_zero,
    Option.bind_some, Page.ofBytes_bytes]
  rfl

theorem rootPage_strayTree : PageFile.page? strayTree.store.index ⟨1⟩ = some strayPage := by
  rw [page?_strayTree, show (⟨1⟩ : PageId).number.toNat = 1 from rfl, List.getElem?_cons_succ,
    List.getElem?_cons_zero, Option.bind_some, Page.ofBytes_bytes]
  rfl

theorem header_strayTree : strayTree.view.header = some ⟨strayTree.keyType, strayTree.root⟩ :=
  Tree.headed_iff.1 ⟨_, headerPage_strayTree, HeaderPage.ofPage_toPage (by decide)⟩

/-- No other page shows a node. -/
theorem kids_strayTree {p : PageId} {children : List PageId}
    (h : strayTree.kids p = some children) : p ≠ .header ∧ children = strayRoot.children := by
  obtain ⟨n, hn, rfl⟩ := Tree.node?_of_kids h
  have hne := (Tree.held_of_node? hn).1
  have hlt : p.number.toNat < 2 := (strayTree.valid_view.hasPage hn).2
  have hnumber : p.number.toNat ≠ 0 := fun h0 =>
    hne (congrArg PageId.mk (UInt64.toNat_inj.1 h0))
  obtain rfl : p = ⟨1⟩ := congrArg PageId.mk (UInt64.toNat_inj.1 (show _ = 1 by omega))
  refine ⟨hne, ?_⟩
  have hnode : strayTree.node? ⟨1⟩ =
      (Node.ofPage strayPage).toOption.filter fun n => n.page = ⟨1⟩ := by
    rw [Tree.node?, if_neg (by decide), rootPage_strayTree, Option.bind_some]
  rw [hnode, ofPage_strayPage] at hn
  obtain ⟨hn, -⟩ := Option.filter_eq_some_iff.1 hn
  cases hn
  rfl

theorem acyclic_strayTree : strayTree.Acyclic := by
  have hlists : ∀ {p q}, strayTree.Lists p q → p ≠ .header ∧ q = .header := by
    rintro p q ⟨children, hkids, hq⟩
    obtain ⟨hne, rfl⟩ := kids_strayTree hkids
    exact ⟨hne, by simpa [strayRoot] using hq⟩
  intro p hp
  obtain ⟨q, hfirst, -⟩ := Relation.TransGen.head'_iff.1 hp
  obtain ⟨r, -, hlast⟩ := Relation.TransGen.tail'_iff.1 hp
  exact (hlists hfirst).1 (hlists hlast).2

/-- The tree is saved and opened again. -/
theorem exists_load_strayTree : ∃ (disk : Disk) (s s' : Store) (t : Tree),
    Store.openAt newStore.config disk = .ok s disk ∧ Tree.load s = .ok t s' ∧
      t.view = strayTree.view ∧ t.Paged ∧ t.Acyclic := by
  obtain ⟨disk, s, s', n, hopen, hload, -, hopened⟩ := Tree.exists_load_saved inStep_strayTree
    (inStep_strayTree.short (by decide) (by decide)) rfl header_strayTree rfl
  exact ⟨disk, s, s', strayTree.tally n, hopen, hload, rfl, hopened.paged, acyclic_strayTree⟩

/-! ### What a request leaves -/

/-- Page 0 names the key type and the root of the handle after every change, if it has done so
before: it is then the page that it was, or the header page of the root that the change has put in
place. No link in the file makes a change take page 0 for a node. -/
theorem Tree.header_names_root {t t' : Tree} (ht : t.Paged) (hacyclic : t.Acyclic)
    (hheader : t.view.header = some ⟨t.keyType, t.root⟩) (c : Change)
    (h : finalState (c.run t) = t') :
    t'.view.header = some ⟨t'.keyType, t'.root⟩ ∧ t'.root ≠ .header ∧ t'.keyType = t.keyType ∧
      (t'.headerPage? = t.headerPage? ∨
        t'.headerPage? = some (HeaderPage.toPage ⟨t'.keyType, t'.root⟩)) := by
  have hleads : t.Leads t' := h ▸ (c.safe_run ht hacyclic).leads_finalState
  have hheaded := headed_iff.2 hheader
  have hheaded' := hleads.headed hheaded
  exact ⟨headed_iff.1 hheaded', hheaded'.root_ne, hleads.keyType_eq, hleads.headerPage hheaded⟩

/-- The header page stays in order although both children of the root are said to be there. -/
theorem Tree.header_names_root_strayTree : ∃ (disk : Disk) (s s' : Store) (t t' : Tree),
    Store.openAt newStore.config disk = .ok s disk ∧ load s = .ok t s' ∧
    t.view = strayTree.view ∧ t.Paged ∧ t.Acyclic ∧
    finalState ((Change.delete (.int32 7)).run t) = t' ∧
    t'.view.header = some ⟨t'.keyType, t'.root⟩ ∧ t'.root ≠ .header := by
  obtain ⟨disk, s, s', t, hopen, hload, hview, hpaged, hacyclic⟩ := exists_load_strayTree
  have hheader : t.view.header = some ⟨t.view.keyType, t.view.root⟩ := hview ▸ header_strayTree
  obtain ⟨hheader', hroot, -⟩ :=
    header_names_root hpaged hacyclic hheader (.delete (.int32 7)) rfl
  exact ⟨disk, s, s', t, _, hopen, hload, hview, hpaged, hacyclic, rfl, hheader', hroot⟩

/-- No request meets a fault, whatever the files hold and whatever is asked for: no position is out
of range, no string that is too long is encoded, and no walk goes on for ever. -/
theorem Request.answer_ne_fault {t : Tree} (ht : t.Paged) (hacyclic : t.Acyclic) (r : Request)
    (f : Fault) : answer (r.run t) ≠ .error (.fault f) := by
  refine Concludes.answer_ne (F := Failure.IsError)
    (Concludes.mono (r.safe_run ht hacyclic) (fun _ _ h => h) fun _ _ he => he.2) ?_
  rintro ⟨e, he⟩
  cases he

/-- A record with a string that is too long to be encoded, and a root whose children cannot be
read. -/
theorem Request.answer_ne_fault_strayTree : ∃ (disk : Disk) (s s' : Store) (t : Tree),
    Store.openAt newStore.config disk = .ok s disk ∧ Tree.load s = .ok t s' ∧
    t.view = strayTree.view ∧ t.Paged ∧ t.Acyclic ∧
    answer ((change (.insert ⟨.int32 7, ⟨[("name",
      .str "forty-six bytes are one more than fit the slot")]⟩⟩)).run t) ≠
      .error (.fault .overlongString) := by
  obtain ⟨disk, s, s', t, hopen, hload, hview, hpaged, hacyclic⟩ := exists_load_strayTree
  exact ⟨disk, s, s', t, hopen, hload, hview, hpaged, hacyclic,
    answer_ne_fault hpaged hacyclic _ _⟩

end RecordIndex
