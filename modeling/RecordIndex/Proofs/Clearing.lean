import RecordIndex.Proofs.Loading
import RecordIndex.Proofs.Refinement

/-!
# Clearing a tree

Clearing writes both files anew and looks at nothing that is in them, so that it recovers a tree from
whatever damage. What it leaves is the tree that is made in a store with empty files, but for the
counters, and so all that is asked of it later is answered as by a new tree.

* `Store.emptied`: a store as it is when its files have no bytes at the time of opening.
* `Tree.exists_plantRoot`: what planting a root writes, whatever root there was before.
* `Operation`: all that can be asked of an open tree, with what is answered.
* `Tree.clear_recovers`: clearing and making a tree come to the same.
-/

namespace RecordIndex

open RecordIndex.Action

theorem FileBytes.setLength_zero (f : FileBytes) : f.setLength 0 = .empty := by
  rw [setLength, if_pos (Nat.zero_le _), truncate, if_pos (Nat.zero_le _), empty]
  congr 1
  exact ByteArray.ext (by simp)

theorem SlotCounters.zero_add (n : SlotCounters) : SlotCounters.zero.add n = n := by
  simp [add, zero]

/-! ### Empty files -/

section Empty

variable {path : String} {f : SlotFile} {d d' : Disk}

/-- An index file that is opened without bytes has no pages. -/
theorem PageFile.eq_of_openAt (h : openAt path d = .ok f d') (hbytes : f.bytes = .empty) :
    f = { SlotFile.ofBytes f.path f.file .empty with layout := some layout } := by
  obtain ⟨file, -, hlay⟩ := openAt_eq_ok_iff.1 h
  obtain ⟨-, -, rfl⟩ := SlotFile.layOut_eq_ok_iff.1 hlay
  have hbytes : d'.bytes file = .empty := hbytes
  have hcount : (FileBytes.empty.length - layout.dataStart.toNat) / layout.slotSize.toNat = 0 := by
    rw [show FileBytes.empty.length = 0 from rfl, Nat.zero_sub, Nat.zero_div]
  rw [hbytes]
  exact congrArg (SlotFile.mk _ _ _ _ · _) (congrArg UInt64.ofNat hcount)

/-- A record file that is opened without bytes has no records, and no size for them. -/
theorem RecordFile.eq_of_openAt (h : openAt path d = .ok f d') (hbytes : f.bytes = .empty) :
    f = .ofBytes f.path f.file .empty := by
  obtain ⟨file, -, hrecall⟩ := openAt_eq_ok_iff.1 h
  obtain ⟨l, n, hf⟩ := exists_of_recallLayout hrecall
  have hempty : d'.bytes file = .empty := by rw [← hbytes, hf]; rfl
  rw [hempty, recallLayout_of_nil rfl] at hrecall
  cases hrecall
  rfl

end Empty

namespace Store

variable {s s' : Store}

/-- The store as it is when its files are opened and have no bytes. -/
def emptied (s : Store) : Store where
  config := s.config
  index := { SlotFile.ofBytes s.index.path s.index.file .empty with
    layout := some PageFile.layout }
  records := .ofBytes s.records.path s.records.file .empty

/-- Nothing but the names of the files is left of a store that is emptied. -/
theorem emptied_congr (hconfig : s'.config = s.config) (hindex : s'.index.home = s.index.home)
    (hrecords : s'.records.home = s.records.home) : s'.emptied = s.emptied := by
  obtain ⟨hpath, hfile⟩ := Prod.mk.inj hindex
  obtain ⟨hpath', hfile'⟩ := Prod.mk.inj hrecords
  rw [emptied, emptied, hconfig, hpath, hfile, hpath', hfile']

theorem eq_emptied_of_openAt {config : StoreConfig} {d d' : Disk} (h : openAt config d = .ok s d')
    (hindex : s.index.bytes = .empty) (hrecords : s.records.bytes = .empty) : s = s.emptied := by
  obtain ⟨-, d₁, hi, hr⟩ := openAt_eq_ok_iff.1 h
  rw [emptied, ← PageFile.eq_of_openAt hi hindex, ← RecordFile.eq_of_openAt hr hrecords]

theorem blank_emptied (s : Store) : s.emptied.Blank where
  index := ⟨rfl, rfl, rfl, by simp, rfl, by decide, by decide, by decide⟩
  layout_eq := rfl
  contents_eq := rfl
  count_eq := rfl

/-- Clearing a store empties it, but its counters go on. -/
theorem clear_eq (h : s.index.layout = some PageFile.layout) :
    clear s = .ok () (s.emptied.tally s.counters) := by
  have hindex : SlotFile.mk s.index.path s.index.file (s.index.bytes.setLength 0) s.index.layout 0
      s.index.counters = s.emptied.index.tally s.index.counters := by
    rw [FileBytes.setLength_zero, h]
    exact congrArg (SlotFile.mk _ _ _ _ _) (SlotCounters.zero_add _).symm
  have hrecords : SlotFile.mk s.records.path s.records.file (s.records.bytes.setLength 0) none 0
      s.records.counters = s.emptied.records.tally s.records.counters := by
    rw [FileBytes.setLength_zero]
    exact congrArg (SlotFile.mk _ _ _ _ _) (SlotCounters.zero_add _).symm
  exact congrArg (EStateM.Result.ok ()) (congrArg₂ (Store.mk s.config) hindex hrecords)

end Store

/-! ### Planting a root -/

namespace PageFile

variable {f : SlotFile} {blocks : List Bytes}

/-- A page of zeros is added to a short file. -/
theorem exists_grow (h : f.Holds layout [] blocks) (hshort : blocks.length < 2) :
    ∃ g, grow f = .ok ⟨f.count⟩ g ∧ g.Holds layout [] (blocks ++ [Page.zero.bytes]) := by
  rcases h.append Page.zero.length_eq with ⟨g, hg, hholds, -⟩ | ⟨-, hlong⟩
  · exact ⟨g, map_eq_ok_iff.2 ⟨_, hg, rfl⟩, hholds⟩
  · have hlong : 2 ^ 63 ≤ 0 + blocks.length * 4096 := hlong
    omega

theorem exists_put (h : f.Holds layout [] blocks) {p : PageId} (hp : p.number.toNat < blocks.length)
    (page : Page) :
    ∃ g, put p page f = .ok () g ∧ g.Holds layout [] (blocks.set p.number.toNat page.bytes) := by
  obtain ⟨g, hg, hholds, -⟩ := h.write hp page.length_eq
  exact ⟨g, hg, hholds⟩

end PageFile

namespace Tree

variable {t : Tree}

/-- Planting a root in an index file without pages writes the header page and an empty leaf, whatever
root there was before. -/
theorem exists_plantRoot (h : t.store.index.Holds PageFile.layout [] []) :
    ∃ leaf f, (Leaf.empty View.firstRoot none t.keyType).toPage = .ok leaf ∧
      f.Holds PageFile.layout []
        [(HeaderPage.mk t.keyType View.firstRoot).toPage.bytes, leaf.bytes] ∧
      ∀ root, plantRoot { t with root } =
        .ok () { t with store := { t.store with index := f }, root := View.firstRoot } := by
  have hempty : (Node.leaf (.empty View.firstRoot none t.keyType)).Encodable :=
    ⟨Nat.zero_le _, fun _ hk => absurd hk List.not_mem_nil, rfl⟩
  obtain ⟨leaf, hleaf, -⟩ := Node.exists_toPage hempty
  have hleaf : (Leaf.empty View.firstRoot none t.keyType).toPage = .ok leaf := hleaf
  obtain ⟨f₁, hgrow₁, h₁⟩ := PageFile.exists_grow h (by decide)
  obtain ⟨f₂, hgrow₂, h₂⟩ := PageFile.exists_grow h₁ (by decide)
  obtain ⟨f₃, hput₃, h₃⟩ := PageFile.exists_put (p := View.firstRoot) h₂ (by decide) leaf
  obtain ⟨f₄, hput₄, h₄⟩ := PageFile.exists_put (p := .header) h₃ Nat.two_pos
    (HeaderPage.mk t.keyType View.firstRoot).toPage
  have hfirst : PageId.mk f₁.count = View.firstRoot :=
    congrArg PageId.mk (UInt64.toNat_inj.1 h₁.count_eq)
  rw [hfirst] at hgrow₂
  refine ⟨leaf, f₄, hleaf, h₄, fun root => ?_⟩
  refine bind_eq_ok_iff.2 ⟨_, _, onIndex_eq_ok_iff.2 ⟨f₁, hgrow₁, rfl⟩, ?_⟩
  refine bind_eq_ok_iff.2 ⟨_, _, onIndex_eq_ok_iff.2 ⟨f₂, hgrow₂, rfl⟩, ?_⟩
  refine bind_eq_ok_iff.2 ⟨_, _, run_get _, ?_⟩
  refine bind_eq_ok_iff.2 ⟨(), { t with store := { t.store with index := f₃ }, root }, ?_, ?_⟩
  · rw [putLeaf, hleaf]
    exact onIndex_eq_ok_iff.2 ⟨f₃, hput₃, rfl⟩
  · refine bind_eq_ok_iff.2 ⟨_, _, run_get _, ?_⟩
    exact bind_eq_ok_iff.2 ⟨(), _, onIndex_eq_ok_iff.2 ⟨f₄, hput₄, rfl⟩, rfl⟩

/-- The tree has just been made: the index file is the header page and an empty leaf without a parent,
which is the root, and the record file has no bytes and no size for its records. -/
structure Planted (t : Tree) : Prop where
  root_eq : t.root = View.firstRoot
  intact : t.needsRepair = false
  index : ∃ leaf, (Leaf.empty View.firstRoot none t.keyType).toPage = .ok leaf ∧
    t.store.index.Holds PageFile.layout []
      [(HeaderPage.mk t.keyType View.firstRoot).toPage.bytes, leaf.bytes]
  records : t.store.records = .ofBytes t.store.records.path t.store.records.file .empty

/-- A root is planted in an emptied store in one way only. -/
theorem exists_planted (s : Store) (keyType : FieldType) : ∃ t : Tree, t.Planted ∧
    t.keyType = keyType ∧ ∀ root, plantRoot ⟨s.emptied, keyType, root, false⟩ = .ok () t := by
  obtain ⟨leaf, f, hleaf, hf, hplant⟩ :=
    exists_plantRoot (t := ⟨s.emptied, keyType, .header, false⟩) s.blank_emptied.index
  exact ⟨⟨{ s.emptied with index := f }, keyType, View.firstRoot, false⟩,
    ⟨rfl, rfl, ⟨leaf, hleaf, hf⟩, rfl⟩, rfl, hplant⟩

theorem make_of_plantRoot {s : Store} {keyType : FieldType} (hempty : s.isEmpty = true)
    (h : plantRoot ⟨s, keyType, .header, false⟩ = .ok () t) : make keyType s = .ok t t.store := by
  rw [make, run_bind, run_get]
  simp only [hempty, if_true, h]
  rfl

/-- What is planted after clearing the store is planted with the counters going on. -/
theorem clear_of_plantRoot (hlayout : t.store.index.layout = some PageFile.layout) {t₀ : Tree}
    (h : plantRoot ⟨t.store.emptied, t.keyType, t.root, false⟩ = .ok () t₀) :
    clear t = .ok () (t₀.tally t.store.counters) := by
  refine bind_eq_ok_iff.2 ⟨(), _, within_eq_ok_iff.2 ⟨_, Store.clear_eq hlayout, rfl⟩, ?_⟩
  refine bind_eq_ok_iff.2 ⟨(), _, run_modify .., ?_⟩
  have hcommutes := commutes_plantRoot (n := t.store.counters)
    ⟨t.store.emptied, t.keyType, t.root, false⟩
  rw [h] at hcommutes
  exact hcommutes

end Tree

/-! ### All that can be asked of a tree -/

/-- Anything that is asked of an open tree. -/
inductive Operation where
  | call (c : Call)
  | leaf (key : Field)
  | height
  | node (p : PageId)
  | audit

/-- What an operation answers if it does not fail. -/
inductive Finding where
  | reply (r : Reply)
  | leaf (l : Leaf)
  | height (levels : Nat)
  | node (n : Node)
  | measures (m : TreeMeasures)

namespace Operation

/-- Does what is asked. -/
def run : Operation → TreeAction Finding
  | call c => .reply <$> c.run
  | leaf key => .leaf <$> Tree.findLeaf key
  | height => .height <$> Tree.height
  | node p => .node <$> Tree.fetchNode p
  | audit => .measures <$> Tree.audit

/-- The answers to one operation after the other. One that fails is not the last. -/
def findings : List Operation → Tree → List (Except Failure Finding)
  | [], _ => []
  | o :: operations, t => answer (o.run t) :: findings operations (finalState (o.run t))

/-- The tree that is left by one operation after the other. -/
def leave (operations : List Operation) (t : Tree) : Tree :=
  operations.foldl (fun t o => finalState (o.run t)) t

variable {n : StoreCounters}

theorem commutes_run : ∀ o : Operation, Commutes (Tree.tally n) o.run
  | call c => c.commutes_run.map _
  | leaf key => (Tree.commutes_findLeaf key).map _
  | height => Tree.commutes_height.map _
  | node p => (Tree.commutes_fetchNode p).map _
  | audit => Tree.commutes_audit.map _

/-- The answers do not depend on the counters. -/
theorem findings_tally (operations : List Operation) (t : Tree) :
    findings operations (t.tally n) = findings operations t := by
  induction operations generalizing t with
  | nil => rfl
  | cons o operations ih =>
    rw [findings, findings, o.commutes_run.answer_eq, o.commutes_run.finalState_eq, ih]

/-- Nor does what is left, but for the counters. -/
theorem leave_tally (operations : List Operation) (t : Tree) :
    leave operations (t.tally n) = (leave operations t).tally n := by
  induction operations generalizing t with
  | nil => rfl
  | cons o operations ih =>
    show leave operations (finalState (o.run (t.tally n))) = _
    rw [o.commutes_run.finalState_eq, ih]
    rfl

end Operation

namespace Tree

/-- Whatever bytes the files of a tree have and whatever its handle knows of them, of its root and of
its records, clearing succeeds and leaves the tree that is made in a store whose files are empty, with
the counters going on. All operations are answered then as on the new tree, and leave the same. -/
theorem clear_recovers {t : Tree} (hlayout : t.store.index.layout = some PageFile.layout) :
    ∃ t₀ : Tree, make t.keyType t.store.emptied = .ok t₀ t₀.store ∧
      t₀.keyType = t.keyType ∧ t₀.Planted ∧ clear t = .ok () (t₀.tally t.store.counters) ∧
      (∀ d : Disk, (finalState (clear t)).save d = t₀.save d) ∧
      (∀ operations : List Operation,
        Operation.findings operations (finalState (clear t)) =
          Operation.findings operations t₀ ∧
        Operation.leave operations (finalState (clear t)) =
          (Operation.leave operations t₀).tally t.store.counters) ∧
      ∀ (d d' : Disk) (s : Store), Store.openAt t.store.config d = .ok s d' →
        s.index.bytes = .empty → s.records.bytes = .empty →
        s.index.home = t.store.index.home → s.records.home = t.store.records.home →
        s = t.store.emptied := by
  obtain ⟨t₀, hplanted, htype, hplant⟩ := exists_planted t.store t.keyType
  have hclear := clear_of_plantRoot hlayout (hplant t.root)
  refine ⟨t₀, make_of_plantRoot rfl (hplant .header), htype, hplanted, hclear,
    fun d => by rw [hclear]; rfl, fun operations => ?_, fun d d' s hopen hi hr hindex hrecords => ?_⟩
  · rw [hclear]
    exact ⟨Operation.findings_tally operations t₀, Operation.leave_tally operations t₀⟩
  · rw [Store.eq_emptied_of_openAt hopen hi hr]
    exact Store.emptied_congr (Store.openAt_eq_ok_iff.1 hopen).1 hindex hrecords

/-- A tree is cleared of which neither file is whole, and the handle knows nothing that is true. -/
theorem clear_recovers_damaged : ∃ t t₀ : Tree, t.needsRepair = true ∧ t.root = ⟨42⟩ ∧
    t.store.index.bytes.contents = [1, 2, 3] ∧ t.store.records.layout = some ⟨5, 9⟩ ∧
    make .int32 newStore = .ok t₀ t₀.store ∧ clear t = .ok () (t₀.tally t.store.counters) ∧
    Operation.findings [.audit] (finalState (clear t)) = Operation.findings [.audit] t₀ := by
  obtain ⟨disk, hopen⟩ := exists_openAt_newStore
  obtain ⟨t₀, hmake, -, -, hclear, -, hlater, hopened⟩ := clear_recovers (t :=
    ⟨⟨newStore.config, ⟨"i", ⟨0⟩, .ofBytes [1, 2, 3], some PageFile.layout, 77, ⟨4, 3, 2, 1⟩⟩,
      ⟨"r", ⟨1⟩, .ofBytes [255], some ⟨5, 9⟩, 3, .zero⟩⟩, .int32, ⟨42⟩, true⟩) rfl
  rw [← hopened _ _ _ hopen rfl rfl rfl rfl] at hmake
  exact ⟨_, t₀, rfl, rfl, FileBytes.contents_ofBytes _, rfl, hmake, hclear, (hlater [.audit]).1⟩

end Tree
end RecordIndex
