import Mathlib.Logic.Function.Basic
import RecordIndex.Proofs.View

/-!
# What writing does to what a tree shows

A tree is in step (`Tree.InStep`) if its handles know what the files say. Then every write that the
operations on trees are made of takes what the tree shows to what it shows afterwards.

* `Tree.Turns x v a v'`: every tree that is in step and shows `v` answers `a` and shows `v'` then.
* `Tree.Yields x v Q E`: so that `Q` holds of the answer and what is shown, or `E` if the file
  system has failed.
* `View.put`, `View.drop`, `View.setRoot`, `View.addRecord` and their like are the changes, and the
  `turns` lemmas say which action makes which.
-/

namespace RecordIndex

/-- The handle of a record file knows what the file says: nothing if it is empty, and else the size
of the records, which stands in front of them. -/
inductive RecordFile.InStep (f : SlotFile) : Prop where
  | unset (layout_eq : f.layout = none) (contents_eq : f.bytes.contents = [])
      (count_eq : f.count = 0)
  | set {n : Nat} {blocks : List Bytes} (size_pos : 0 < n) (size_le : n ≤ maxRecordSize)
      (holds : f.Holds (layout (UInt64.ofNat n)) (encodeHeader n) blocks)

/-- Reading a record does not matter. -/
theorem RecordFile.InStep.addReads {f : SlotFile} (h : InStep f) (n : UInt64) :
    InStep (f.addReads n) := by
  cases h with
  | unset hl hc hn => exact .unset hl hc hn
  | set hpos hle hf => exact .set hpos hle (hf.addReads n)

namespace View

/-- The view with a page written, whatever is on it. -/
def setPage (v : View) (p : PageId) (page : Page) : View :=
  if p.isHeader then { v with header := (HeaderPage.ofPage page).toOption }
  else { v with
    node := Function.update v.node p ((Node.ofPage page).toOption.filter fun n => n.page = p) }

/-- The view with a node on its page. -/
def put (v : View) (n : Node) : View := { v with node := Function.update v.node n.page (some n) }

/-- The view without the node on a page. -/
def drop (v : View) (p : PageId) : View := { v with node := Function.update v.node p none }

/-- The view with one more page. -/
def grow (v : View) : View := { v with pageCount := v.pageCount + 1 }

/-- The page that comes next. -/
def nextPage (v : View) : PageId := ⟨UInt64.ofNat v.pageCount⟩

/-- The view with another root, which the header page names. -/
def setRoot (v : View) (p : PageId) : View := { v with root := p, header := some ⟨v.keyType, p⟩ }

/-- The slot that comes next. -/
def nextRecord (v : View) : RecordId := ⟨UInt64.ofNat v.recordCount⟩

/-- The view with one more record. -/
def addRecord (v : View) (r : Record) : View :=
  { v with
    recordSize := some r.size
    recordCount := v.recordCount + 1
    record := Function.update v.record v.nextRecord (some r) }

/-- The view with another record in a slot. -/
def setRecord (v : View) (id : RecordId) (r : Option Record) : View :=
  { v with record := Function.update v.record id r }

/-- One of the files is as long as a file can be. -/
def Full (v : View) : Prop :=
  2 ^ 63 ≤ v.pageCount * pageSize ∨
    ∃ n, v.recordSize = some n ∧ 2 ^ 63 ≤ recordHeaderBytes + v.recordCount * n

@[simp] theorem node_put (v : View) (n : Node) (p : PageId) :
    (v.put n).node p = if p = n.page then some n else v.node p :=
  Function.update_apply ..

@[simp] theorem node_drop (v : View) (q p : PageId) :
    (v.drop q).node p = if p = q then none else v.node p :=
  Function.update_apply ..

@[simp] theorem node_grow (v : View) : v.grow.node = v.node := rfl

@[simp] theorem node_setRoot (v : View) (p : PageId) : (v.setRoot p).node = v.node := rfl

end View

namespace Tree

/-- The handles know what the files say, as they do when a tree is opened (`inStep_of_load`). -/
structure InStep (t : Tree) : Prop where
  index : ∃ blocks, t.store.index.Holds PageFile.layout [] blocks
  records : RecordFile.InStep t.store.records

/-- The tree is in step and shows `v`. -/
def Shows (t : Tree) (v : View) : Prop := t.InStep ∧ t.view = v

section Logic

variable {α β : Type} {v v' v'' : View}

/-- On every tree that is in step and shows `v`, the action answers `a`, and the tree is in step and
shows `v'` then. -/
def Turns (x : TreeAction α) (v : View) (a : α) (v' : View) : Prop :=
  ∀ t : Tree, t.Shows v → ∃ t' : Tree, x t = .ok a t' ∧ t'.Shows v'

/-- On every tree that is in step and shows `v`, the action answers, or the file system fails. The
tree stays in step, and `Q` or `E` holds of what it shows then. -/
def Yields (x : TreeAction α) (v : View) (Q : α → View → Prop) (E : View → Prop) : Prop :=
  ∀ t : Tree, t.Shows v →
    (∃ a t' v', x t = .ok a t' ∧ t'.Shows v' ∧ Q a v') ∨
      ∃ e t' v', x t = .error (.error (.io e)) t' ∧ t'.Shows v' ∧ E v'

theorem InStep.addReads {t : Tree} (h : t.InStep) (i j : UInt64) : (t.addReads i j).InStep := by
  obtain ⟨⟨blocks, hi⟩, hr⟩ := h
  exact ⟨⟨blocks, hi.addReads i⟩, hr.addReads j⟩

theorem Answers.turns {x : TreeAction α} {a : α} (h : Answers x v (.ok a)) : Turns x v a v := by
  intro t ht
  obtain ⟨i, j, hx⟩ := h.run_ok ht.2
  exact ⟨_, hx, ht.1.addReads i j, ht.2⟩

theorem Turns.bind {x : TreeAction α} {f : α → TreeAction β} {a : α} {b : β} (hx : Turns x v a v')
    (hf : Turns (f a) v' b v'') : Turns (x >>= f) v b v'' := by
  intro t ht
  obtain ⟨t', hx, ht'⟩ := hx t ht
  obtain ⟨t'', hf, ht''⟩ := hf t' ht'
  exact ⟨t'', Action.bind_eq_ok_iff.2 ⟨a, t', hx, hf⟩, ht''⟩

theorem turns_pure (a : α) : Turns (pure a) v a v := (answers_pure a).turns

theorem Turns.yields {x : TreeAction α} {a : α} {Q : α → View → Prop} {E : View → Prop}
    (h : Turns x v a v') (hQ : Q a v') : Yields x v Q E := by
  intro t ht
  obtain ⟨t', hx, ht'⟩ := h t ht
  exact .inl ⟨a, t', v', hx, ht', hQ⟩

theorem Turns.bind_yields {x : TreeAction α} {f : α → TreeAction β} {a : α}
    {Q : β → View → Prop} {E : View → Prop} (hx : Turns x v a v') (hf : Yields (f a) v' Q E) :
    Yields (x >>= f) v Q E := by
  intro t ht
  obtain ⟨t', hx, ht'⟩ := hx t ht
  rw [Action.run_bind, hx]
  exact hf t' ht'

theorem Yields.bind {x : TreeAction α} {f : α → TreeAction β} {P : α → View → Prop}
    {Q : β → View → Prop} {E : View → Prop} (hx : Yields x v P E)
    (hf : ∀ a v', P a v' → Yields (f a) v' Q E) : Yields (x >>= f) v Q E := by
  intro t ht
  rcases hx t ht with ⟨a, t', v', hx, ht', hP⟩ | ⟨e, t', v', hx, ht', hE⟩
  · rw [Action.run_bind, hx]
    exact hf a v' hP t' ht'
  · rw [Action.run_bind, hx]
    exact .inr ⟨e, t', v', rfl, ht', hE⟩

theorem Yields.mono {x : TreeAction α} {Q Q' : α → View → Prop} {E E' : View → Prop}
    (h : Yields x v Q E) (hQ : ∀ a v', Q a v' → Q' a v') (hE : ∀ v', E v' → E' v') :
    Yields x v Q' E' := by
  intro t ht
  rcases h t ht with ⟨a, t', v', hx, ht', hq⟩ | ⟨e, t', v', hx, ht', he⟩
  · exact .inl ⟨a, t', v', hx, ht', hQ a v' hq⟩
  · exact .inr ⟨e, t', v', hx, ht', hE v' he⟩

/-- What is done with the tree itself. -/
theorem turns_get_bind {f : Tree → TreeAction β} {b : β}
    (h : ∀ t : Tree, t.Shows v → Turns (f t) v b v') : Turns (get >>= f) v b v' := fun t ht =>
  h t ht t ht

theorem yields_get_bind {f : Tree → TreeAction β} {Q : β → View → Prop} {E : View → Prop}
    (h : ∀ t : Tree, t.Shows v → Yields (f t) v Q E) : Yields (get >>= f) v Q E := fun t ht =>
  h t ht t ht

theorem Shows.valid {t : Tree} (h : t.Shows v) : v.Valid := h.2 ▸ t.valid_view

theorem Shows.stepLimit_eq {t : Tree} (h : t.Shows v) : t.stepLimit = v.pageCount + 1 := by
  rw [← h.2]
  rfl

/-- Whatever is shown is valid. -/
theorem yields_of_valid {x : TreeAction α} {Q : α → View → Prop} {E : View → Prop}
    (h : v.Valid → Yields x v Q E) : Yields x v Q E := fun t ht => h ht.valid t ht

theorem turns_of_valid {x : TreeAction α} {a : α} (h : v.Valid → Turns x v a v') :
    Turns x v a v' := fun t ht => h ht.valid t ht

end Logic

/-! ### Pages -/

section Pages

variable {v : View}

theorem page?_of_holds {f : SlotFile} {blocks : List Bytes}
    (h : f.Holds PageFile.layout [] blocks) (p : PageId) :
    PageFile.page? f p = (blocks[p.number.toNat]?).bind fun b => (Page.ofBytes b).toOption := by
  rw [PageFile.page?, h.block?_eq]

theorem page?_set {f g : SlotFile} {blocks : List Bytes} {p : PageId} {page : Page}
    (hf : f.Holds PageFile.layout [] blocks) (hp : p.number.toNat < blocks.length)
    (hg : g.Holds PageFile.layout [] (blocks.set p.number.toNat page.bytes)) (q : PageId) :
    PageFile.page? g q = if q = p then some page else PageFile.page? f q := by
  rw [page?_of_holds hg, page?_of_holds hf]
  split_ifs with hq
  · rw [hq, List.getElem?_set_self hp, Option.bind_some, Page.ofBytes_bytes]
    rfl
  · have hne : p.number.toNat ≠ q.number.toNat := fun he =>
      hq (congrArg PageId.mk (UInt64.toNat_inj.1 he.symm))
    rw [List.getElem?_set_ne hne]

/-- A tree whose index file has changed in one page shows the change. -/
theorem view_setIndex {t : Tree} {g : SlotFile} {p : PageId} {page : Page}
    (hpage : ∀ q, PageFile.page? g q = if q = p then some page else PageFile.page? t.store.index q)
    (hcount : g.count = t.store.index.count) (hhome : g.home = t.store.index.home) :
    ({ t with store := { t.store with index := g } } : Tree).view = t.view.setPage p page := by
  have hnode : ∀ q, ({ t with store := { t.store with index := g } } : Tree).node? q =
      if q.isHeader then none
      else if q = p then (Node.ofPage page).toOption.filter fun n => n.page = q
      else t.node? q := by
    intro q
    unfold node?
    rw [hpage]
    split_ifs <;> rfl
  unfold View.setPage view
  simp only [hpage, pageCount, recordCount, hcount, hhome]
  -- the header page holds no node, and every other page nothing else
  by_cases hp : p.isHeader
  · have hph : PageId.header = p := (eq_of_beq hp).symm
    rw [if_pos hp, if_pos hph]
    congr 1
    funext q
    rw [hnode q]
    by_cases hq : q.isHeader
    · rw [if_pos hq, node?, if_pos hq]
    · rw [if_neg hq, if_neg fun he : q = p => hq (he ▸ hp)]
  · have hph : PageId.header ≠ p := fun he => hp (he ▸ rfl)
    rw [if_neg hp, if_neg hph]
    congr 1
    funext q
    rw [hnode q]
    by_cases hq : q = p
    · subst hq
      rw [if_neg hp, if_pos rfl, Function.update_self]
    · rw [Function.update_of_ne hq, if_neg hq]
      by_cases hqh : q.isHeader
      · rw [if_pos hqh, node?, if_pos hqh]
      · rw [if_neg hqh]

/-- An action on the index file that writes one page. -/
theorem turns_onIndex {x : SlotAction Unit} {p : PageId} {page : Page}
    (hp : p.number.toNat < v.pageCount)
    (hx : ∀ f blocks, f.Holds PageFile.layout [] blocks → p.number.toNat < blocks.length →
      ∃ g, x f = .ok () g ∧ g.Holds PageFile.layout [] (blocks.set p.number.toNat page.bytes) ∧
        g.home = f.home) :
    Turns (onIndex x) v () (v.setPage p page) := by
  intro t ht
  obtain ⟨⟨⟨blocks, hf⟩, hr⟩, rfl⟩ := ht
  have hlt : p.number.toNat < blocks.length := by
    rw [← hf.count_eq]
    exact hp
  obtain ⟨g, hxg, hg, hhome⟩ := hx _ _ hf hlt
  have hcount : g.count = t.store.index.count := UInt64.toNat_inj.1 (by
    rw [hg.count_eq, hf.count_eq, List.length_set])
  exact ⟨_, onIndex_eq_ok_iff.2 ⟨g, hxg, rfl⟩, ⟨⟨_, hg⟩, hr⟩,
    view_setIndex (page?_set hf hlt hg) hcount hhome⟩

theorem turns_putPage {p : PageId} (page : Page) (hp : p.number.toNat < v.pageCount) :
    Turns (onIndex (PageFile.put p page)) v () (v.setPage p page) :=
  turns_onIndex hp fun _ _ hf hlt => hf.write hlt page.length_eq

theorem turns_erasePage {p : PageId} (hp : p.number.toNat < v.pageCount) :
    Turns (onIndex (PageFile.erase p)) v () (v.setPage p .zero) :=
  turns_onIndex hp fun _ _ hf hlt => hf.zero hlt

/-! ### Nodes -/

/-- The page that is written for a node shows the node. -/
theorem setPage_of_ofPage {n : Node} {page : Page} (hn : n.page ≠ .header)
    (h : Node.ofPage page = .ok n) : v.setPage n.page page = v.put n := by
  have hh : ¬ n.page.isHeader := fun he => hn (eq_of_beq he)
  rw [View.setPage, if_neg hh, toOption_eq_some_iff.2 h, View.put]
  simp [Option.filter]

theorem turns_put {n : Node} (hn : n.Encodable) (hp : v.HasPage n.page) :
    ∃ page, n.toPage = .ok page ∧
      Turns (onIndex (PageFile.put n.page page)) v () (v.put n) := by
  obtain ⟨page, hpage, hof⟩ := Node.exists_toPage hn
  refine ⟨page, hpage, ?_⟩
  rw [← setPage_of_ofPage hp.1 hof]
  exact turns_putPage page hp.2

theorem turns_putLeaf {l : Leaf} (hl : (Node.leaf l).Encodable) (hp : v.HasPage l.page) :
    Turns (putLeaf l) v () (v.put (.leaf l)) := by
  obtain ⟨page, hpage, hput⟩ := turns_put hl hp
  have hpage : l.toPage = .ok page := hpage
  rw [putLeaf, hpage]
  exact hput

theorem turns_putInternal {n : Internal} (hn : (Node.internal n).Encodable)
    (hp : v.HasPage n.page) :
    Turns (putInternal n) v () (v.put (.internal n)) := by
  obtain ⟨page, hpage, hput⟩ := turns_put hn hp
  have hpage : n.toPage = .ok page := hpage
  rw [putInternal, hpage]
  exact hput

theorem ofPage_zero : (Node.ofPage .zero).toOption = none := by
  have hz : Page.zero.bytes = 0 :: zeros (pageSize - 1) := rfl
  have : Node.ofPage .zero = .error (.corrupted (.fieldType 0)) := by
    rw [Node.ofPage, hz]
    rfl
  rw [this]
  rfl

theorem headerOfPage_zero : (HeaderPage.ofPage .zero).toOption = none := by
  have hz : Page.zero.bytes = 0 :: 0 :: 0 :: 0 :: zeros (pageSize - 4) := rfl
  have : HeaderPage.ofPage .zero = .error (.corrupted .noTreeHeader) := by
    rw [HeaderPage.ofPage, hz]
    rfl
  rw [this]
  rfl

theorem turns_releasePage {p : PageId} (hp : v.HasPage p) :
    Turns (releasePage p) v () (v.drop p) := by
  have hh : ¬ p.isHeader := fun he => hp.1 (eq_of_beq he)
  have hdrop : v.setPage p .zero = v.drop p := by
    rw [View.setPage, if_neg hh, ofPage_zero]
    rfl
  rw [← hdrop]
  exact turns_erasePage hp.2

/-- Changing the parent link of a node. -/
theorem turns_relink {p : PageId} {n : Node} (h : v.node p = some n) (parent : Option PageId) :
    Turns (relink p parent) v () (v.put (n.withParent parent)) := by
  intro t ht
  obtain ⟨hstep, rfl⟩ := ht
  have hvalid := t.valid_view
  obtain ⟨hne, hlt⟩ := hvalid.hasPage h
  have hnode : t.node? p = some n := h
  unfold node? at hnode
  split_ifs at hnode with hh
  obtain ⟨page, hpage, hnode⟩ := Option.bind_eq_some_iff.1 hnode
  obtain ⟨hof, -⟩ := Option.filter_eq_some_iff.1 hnode
  rw [toOption_eq_some_iff] at hof
  obtain ⟨hheader, hset⟩ := Node.ofPage_setHeader hof parent
  have hfetch : onIndex (PageFile.fetch p) t = .ok page (t.addReads 1 0) :=
    onIndex_eq_ok_iff.2 ⟨_, fetchPage_eq_ok_iff.2 ⟨hpage, rfl⟩, (addReads_index t 1).symm⟩
  have hid : (n.withParent parent).page = p := by
    rw [← hvalid.page_eq h]
    cases n <;> rfl
  have hput := turns_putPage (v := t.view) (p := p)
    (page.setHeader { n.header with parent }) hlt
  rw [← hid, setPage_of_ofPage (hid ▸ hne) hset, hid] at hput
  obtain ⟨t', hx, ht'⟩ := hput (t.addReads 1 0) ⟨hstep.addReads 1 0, rfl⟩
  refine ⟨t', ?_, ht'⟩
  rw [relink, Action.run_bind, hfetch]
  simp only [hheader, Action.ofExcept_ok, pure_bind]
  exact hx

/-- Making a page the root. -/
theorem turns_moveRoot {p : PageId} (hp : p ≠ .header) (hcount : 0 < v.pageCount) :
    Turns (moveRoot p) v () (v.setRoot p) := by
  intro t ht
  obtain ⟨hstep, rfl⟩ := ht
  have hof : HeaderPage.ofPage (HeaderPage.toPage ⟨t.keyType, p⟩) = .ok ⟨t.keyType, p⟩ :=
    HeaderPage.ofPage_toPage hp
  have hput := turns_putPage (v := t.view) (p := .header) (HeaderPage.toPage ⟨t.keyType, p⟩) hcount
  rw [View.setPage, if_pos (show PageId.header.isHeader = true from rfl),
    toOption_eq_some_iff.2 hof] at hput
  obtain ⟨t', hx, hstep', hview⟩ := hput t ⟨hstep, rfl⟩
  refine ⟨{ t' with root := p }, ?_, ⟨hstep'.index, hstep'.records⟩, ?_⟩
  · exact Action.bind_eq_ok_iff.2 ⟨t, t, rfl, Action.bind_eq_ok_iff.2 ⟨(), t', hx, rfl⟩⟩
  · show { t'.view with root := p } = _
    rw [hview]
    rfl

/-- Whatever is read from a page of zeros as nothing is not read from a new page either. -/
theorem bind_page?_append {f g : SlotFile} {blocks : List Bytes} {β : Type} {read : Page → Option β}
    (hf : f.Holds PageFile.layout [] blocks)
    (hg : g.Holds PageFile.layout [] (blocks ++ [Page.zero.bytes])) (hread : read .zero = none)
    (q : PageId) : (PageFile.page? g q).bind read = (PageFile.page? f q).bind read := by
  rw [page?_of_holds hg, page?_of_holds hf]
  rcases Nat.lt_trichotomy q.number.toNat blocks.length with hlt | heq | hgt
  · rw [List.getElem?_append_left hlt]
  · rw [heq, List.getElem?_concat_length, List.getElem?_eq_none (Nat.le_refl _), Option.bind_some,
      Page.ofBytes_bytes]
    exact hread
  · rw [List.getElem?_eq_none (Nat.le_of_lt hgt), List.getElem?_eq_none]
    rw [List.length_append]
    exact hgt

/-- Adding a page. The page is of no use yet, and the file may be too long already. -/
theorem yields_newPage :
    Yields newPage v (fun p v' => p = v.nextPage ∧ p.number.toNat = v.pageCount ∧ v' = v.grow)
      (fun v' => v' = v ∧ 2 ^ 63 ≤ v.pageCount * pageSize) := by
  intro t ht
  obtain ⟨⟨⟨blocks, hf⟩, hr⟩, rfl⟩ := ht
  -- the file has room, or the file system refuses to write so far
  have hcount : t.view.pageCount = blocks.length := hf.count_eq
  rcases hf.append (b := Page.zero.bytes) Page.zero.length_eq with ⟨g, hx, hg, hhome⟩ | ⟨hx, hlong⟩
  · have hnode : ∀ q, ({ t with store := { t.store with index := g } } : Tree).node? q =
        t.node? q := by
      intro q
      unfold node?
      split_ifs
      · rfl
      · exact bind_page?_append hf hg (by simp [ofPage_zero]) q
    refine .inl ⟨⟨t.store.index.count⟩, { t with store := { t.store with index := g } },
      t.view.grow, ?_, ⟨⟨⟨_, hg⟩, hr⟩, ?_⟩, ?_, rfl, rfl⟩
    · refine onIndex_eq_ok_iff.2 ⟨g, ?_, rfl⟩
      rw [PageFile.grow, Action.run_map, hx]
    · have hheader :=
        @bind_page?_append _ _ _ _ (fun page => (HeaderPage.ofPage page).toOption) hf hg
        headerOfPage_zero .header
      have hcount' : g.count.toNat = t.store.index.count.toNat + 1 := by
        rw [hg.count_eq, hf.count_eq, List.length_append]
        rfl
      unfold view View.grow
      simp only [hheader, pageCount, recordCount, hcount', hhome]
      congr 1
      exact funext hnode
    · show PageId.mk t.store.index.count = ⟨UInt64.ofNat t.store.index.count.toNat⟩
      rw [UInt64.ofNat_toNat]
  · refine .inr ⟨.invalidInput, t, t.view, ?_, ⟨⟨⟨blocks, hf⟩, hr⟩, rfl⟩, rfl, ?_⟩
    · unfold newPage onIndex onStore Store.onIndex
      simp only [Action.run_within, PageFile.grow, Action.run_map, hx]
    · have hstart : PageFile.layout.dataStart.toNat = 0 := rfl
      have hsize : PageFile.layout.slotSize.toNat = pageSize := rfl
      rw [hstart, hsize, Nat.zero_add] at hlong
      rw [hcount]
      exact hlong

end Pages

end Tree
end RecordIndex
