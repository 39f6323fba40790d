import RecordIndex.Proofs.Settling
import RecordIndex.Tree.Change

/-!
# Planting a tree

A new tree, and one that has been cleared, has a header page and an empty leaf as its root, and no
records. Its files are so short that nothing can go wrong.

* `View.blank` is what is shown of a tree without pages, and `View.planted` with its root.
* `View.rooted` is what is shown when a root is planted, whatever records there are.
* `Store.Blank`: a store in which a tree can be made.
* `Tree.turns_plantRoot`, `Tree.turns_clear` and `Tree.exists_make`: how a tree comes to show that.
-/

namespace RecordIndex

namespace View

/-- What is shown of a tree whose files have neither pages nor records. -/
def blank (home : Home) (keyType : FieldType) (root : PageId) : View where
  home := home
  needsRepair := false
  keyType := keyType
  root := root
  header := none
  pageCount := 0
  node := fun _ => none
  recordSize := none
  recordCount := 0
  record := fun _ => none

/-- The page of the first root. -/
def firstRoot : PageId := ⟨1⟩

/-- What is shown of a tree with an empty leaf as its root. -/
def planted (home : Home) (keyType : FieldType) : View where
  home := home
  needsRepair := false
  keyType := keyType
  root := firstRoot
  header := some ⟨keyType, firstRoot⟩
  pageCount := 2
  node := Function.update (fun _ => none) firstRoot (some (.leaf (.empty firstRoot none keyType)))
  recordSize := none
  recordCount := 0
  record := fun _ => none

/-- The view with a header page and an empty leaf as the root, where there were no pages. -/
def rooted (v : View) : View :=
  (v.grow.grow.put (.leaf (.empty firstRoot none v.keyType))).setRoot firstRoot

/-- A new root is an empty leaf. -/
theorem hasShape_rooted (v : View) : v.rooted.HasShape (Shape.twig firstRoot []) where
  root_eq := rfl
  stored := by
    refine ⟨?_, trivial⟩
    show (v.grow.grow.put (.leaf (.empty firstRoot none v.keyType))).node firstRoot = _
    rw [node_put]
    exact if_pos rfl
  nodup := List.nodup_singleton _
  ranged := ⟨List.Pairwise.nil, fun _ hk => absurd hk List.not_mem_nil⟩
  occupied := ⟨⟨Nat.zero_le _, Nat.zero_le _⟩, trivial⟩
  resolved := fun _ he => absurd he List.not_mem_nil

/-- A planted tree is an empty leaf. -/
theorem hasShape_planted (home : Home) (keyType : FieldType) :
    (planted home keyType).HasShape (Shape.twig firstRoot []) :=
  hasShape_rooted (blank home keyType firstRoot)

/-- There is nothing else. -/
theorem tidy_planted (home : Home) (keyType : FieldType) :
    (planted home keyType).Tidy (Shape.twig firstRoot []) where
  node p _ hp := by
    have hne : p ≠ firstRoot := fun he => hp (List.mem_singleton.2 he)
    exact Function.update_of_ne hne _ fun _ => none
  record _ _ _ := rfl

end View

/-- The files of the store have neither pages nor records, and the handles know it. -/
structure Store.Blank (s : Store) : Prop where
  index : s.index.Holds PageFile.layout [] []
  layout_eq : s.records.layout = none
  contents_eq : s.records.bytes.contents = []
  count_eq : s.records.count = 0

namespace Tree

/-- Adding a page to a short file. -/
theorem turns_newPage {v : View} (h : v.pageCount < 2) : Turns newPage v v.nextPage v.grow := by
  intro t ht
  rcases yields_newPage t ht with ⟨p, t', v', hx, ht', rfl, -, rfl⟩ | ⟨e, t', v', -, -, -, hlong⟩
  · exact ⟨t', hx, ht'⟩
  · have : v.pageCount * pageSize ≤ 1 * pageSize := Nat.mul_le_mul_right _ (Nat.le_of_lt_succ h)
    have : 1 * pageSize < 2 ^ 63 := Nat.le_of_ble_eq_true rfl
    omega

/-- The root is planted in an index file without pages. -/
theorem turns_plantRoot {v : View} (h : v.pageCount = 0) : Turns plantRoot v () v.rooted := by
  have hempty : (Node.leaf (.empty View.firstRoot none v.keyType)).Encodable :=
    ⟨Nat.zero_le _, fun _ hk => absurd hk List.not_mem_nil, rfl⟩
  have hcount : v.grow.grow.pageCount = 2 := congrArg (· + 2) h
  have hnext : v.grow.nextPage = View.firstRoot := by
    rw [View.nextPage, show v.grow.pageCount = 1 from congrArg (· + 1) h]
    rfl
  have hpage : v.grow.grow.HasPage View.firstRoot :=
    ⟨by simp [View.firstRoot, PageId.header], by rw [hcount]; exact Nat.le_refl _⟩
  refine (turns_newPage (by omega)).bind ?_
  refine (turns_newPage (Nat.lt_of_le_of_lt (congrArg (· + 1) h).le Nat.one_lt_two)).bind ?_
  refine turns_get_bind fun t ht => ?_
  have htype : t.keyType = v.keyType := congrArg View.keyType ht.2
  rw [htype, hnext]
  refine (turns_putLeaf hempty hpage).bind (turns_moveRoot hpage.1 ?_)
  exact Nat.lt_of_lt_of_eq Nat.two_pos hcount.symm

/-- Nothing is shown of a tree whose files are empty. -/
theorem shows_blank {t : Tree} (h : t.store.Blank) (hr : t.needsRepair = false) :
    t.Shows (View.blank t.view.home t.keyType t.root) := by
  have hpage : ∀ p, PageFile.page? t.store.index p = none := fun p => by
    rw [page?_of_holds h.index]
    rfl
  have hcount : t.pageCount.toNat = 0 := h.index.count_eq
  have hrecordCount : t.recordCount = 0 := h.count_eq
  have hrecord : ∀ id, RecordFile.record? t.store.records id = none := fun id => by
    rw [RecordFile.record?, SlotFile.block?, h.layout_eq]
    rfl
  refine ⟨⟨⟨[], h.index⟩, .unset h.layout_eq h.contents_eq h.count_eq⟩, ?_⟩
  unfold view View.blank
  simp only [hpage, hcount, hrecordCount, hr, SlotFile.slotSize?, h.layout_eq, Option.bind_none,
    Option.map_none]
  congr 1
  · funext p
    unfold node?
    split_ifs
    · rfl
    · rw [hpage, Option.bind_none]
  · exact funext hrecord

/-- Clearing a store leaves nothing in it. -/
theorem exists_clear {s : Store} {blocks : List Bytes}
    (hi : s.index.Holds PageFile.layout [] blocks) : ∃ s', Store.clear s = .ok () s' ∧ s'.Blank ∧
      s'.config = s.config ∧ s'.index.home = s.index.home ∧ s'.records.home = s.records.home := by
  refine ⟨_, rfl, ⟨⟨hi.layout_eq, ?_, rfl, by simp, rfl, hi.size_pos, hi.size_lt, ?_⟩, rfl, ?_,
    rfl⟩,
    rfl, rfl, rfl⟩
  · show (s.index.bytes.setLength 0).contents = _
    rw [FileBytes.contents_setLength]
    simp [zeros]
  · rw [List.length_nil, Nat.zero_mul]
    exact Nat.lt_add_right _ (Nat.le_of_ble_eq_true rfl)
  · show (s.records.bytes.setLength 0).contents = _
    rw [FileBytes.contents_setLength]
    simp [zeros]

/-- Clearing a tree plants it anew, whatever it was like. -/
theorem turns_clear (v : View) : Turns clear v () (View.planted v.home v.keyType) := by
  rintro t ⟨⟨⟨blocks, hi⟩, -⟩, rfl⟩
  obtain ⟨s, hs, hblank, hconfig, hindex, hrecords⟩ := exists_clear hi
  have hshows := @shows_blank { t with store := s, needsRepair := false } hblank rfl
  obtain ⟨t', hx, ht'⟩ := turns_plantRoot rfl _ hshows
  refine ⟨t', ?_, ?_⟩
  · refine Action.bind_eq_ok_iff.2 ⟨(), { t with store := s }, ?_, ?_⟩
    · exact Action.within_eq_ok_iff.2 ⟨s, hs, rfl⟩
    · exact Action.bind_eq_ok_iff.2 ⟨(), _, rfl, hx⟩
  · have hhome : View.home (view { t with store := s, needsRepair := false }) = t.view.home := by
      show Home.mk _ _ _ = Home.mk _ _ _
      rw [hconfig, hindex, hrecords]
    rw [hhome] at ht'
    exact ht'

/-- Making a tree in a store without pages plants its root. -/
theorem exists_make_rooted {s : Store} {keyType : FieldType}
    (h : (⟨s, keyType, .header, false⟩ : Tree).InStep) (hempty : s.isEmpty = true) :
    ∃ t : Tree, make keyType s = .ok t t.store ∧
      t.Shows (view ⟨s, keyType, .header, false⟩).rooted := by
  have hcount : s.index.count = 0 := eq_of_beq hempty
  obtain ⟨t, hx, ht⟩ := turns_plantRoot (congrArg UInt64.toNat hcount) _ ⟨h, rfl⟩
  refine ⟨t, ?_, ht⟩
  unfold make
  rw [Action.run_bind, Action.run_get]
  simp only [hempty, if_true, hx]
  rfl

/-- Making a tree in a store with nothing in it plants it. -/
theorem exists_make {s : Store} (h : s.Blank) (keyType : FieldType) :
    ∃ t : Tree, make keyType s = .ok t t.store ∧
      t.Shows (View.planted ⟨s.config, s.index.home, s.records.home⟩ keyType) := by
  obtain ⟨hstep, hview⟩ := @shows_blank ⟨s, keyType, .header, false⟩ h rfl
  have hcount : s.index.count = 0 := UInt64.toNat_inj.1 h.index.count_eq
  obtain ⟨t, hmake, ht⟩ := exists_make_rooted hstep (by rw [Store.isEmpty, hcount]; rfl)
  rw [hview] at ht
  exact ⟨t, hmake, ht⟩

end Tree
end RecordIndex
