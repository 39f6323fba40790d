import RecordIndex.Proofs.CleanFiles
import RecordIndex.Proofs.Codec.ParentLink
import RecordIndex.Proofs.Histories

/-!
# Pages that a change leaves alone

A change of a well-formed tree writes over nodes on the way that the key leads, and a deletion over
their neighbours too. Of the children of these nodes it changes the parent link alone, and of all
other pages nothing.

* `View.OnWay` and `View.BesideWay`: the pages on the way of a key, and the neighbours of the way.
* `Change.zone`: where a change writes, with `Change.admits_zone`.
* `Tree.Relinked`: a page on which nothing but the parent link has changed.
* `Tree.writes_near_way`: what a change, whether or not it fails, does to each page.
-/

namespace RecordIndex

open RecordIndex.Action

/-! ### The way of a key -/

namespace View

/-- The page is on the way that the key leads: that of the root, or of the child of such a node that
is in the place of the key. -/
inductive OnWay (v : View) (key : Field) : PageId → Prop
  | root : OnWay v key v.root
  | child {p c : PageId} {n : Internal} (hp : OnWay v key p) (hn : v.node p = some (.internal n))
      (hc : n.children[Keys.firstLarger key n.keys]? = some c) : OnWay v key c

/-- The page is next to the way: on one side of the child in the place of the key, below a node on the
way. -/
def BesideWay (v : View) (key : Field) (p : PageId) : Prop :=
  ∃ q n, v.OnWay key q ∧ v.node q = some (.internal n) ∧
    ∃ i, n.children[i]? = some p ∧
      (i + 1 = Keys.firstLarger key n.keys ∨ i = Keys.firstLarger key n.keys + 1)

end View

namespace Change

/-- The change may write over the node on the page. -/
def Reaches (v : View) (p : PageId) : Change → Prop
  | insert r => v.OnWay r.key p
  | update _ => False
  | delete key => v.OnWay key p ∨ v.BesideWay key p

/-- The change may write over the node above the page. -/
def ReachesParent (v : View) (c : Change) (p : PageId) : Prop :=
  ∃ q n, c.Reaches v q ∧ v.node q = some (.internal n) ∧ p ∈ n.children

/-- Where the change may write. -/
def zone (v : View) (c : Change) : Tree.Zone where
  node p := c.Reaches v p
  fresh := v.pageCount
  link := c.ReachesParent v
  root p := p ≠ v.root
  records := True

end Change

namespace Shape

variable {look : PageId → Option Node} {keyType : FieldType} {parent : Option PageId} {h : Nat}

/-- The children of a node of a tree are in the tree, and link to the node. -/
theorem Stored.exists_child {s : Shape h} (hs : s.Stored look keyType parent) {p c : PageId}
    (hp : p ∈ s.pages) {n : Internal} (hn : look p = some (.internal n)) (hc : c ∈ n.children) :
    c ∈ s.pages ∧ ∃ m, look c = some m ∧ m.parent = some p := by
  induction h generalizing parent with
  | zero =>
    obtain rfl : p = s.page := List.mem_singleton.1 hp
    cases hn.symm.trans hs.1
  | succ h ih =>
    rw [pages_eq] at hp
    rcases List.mem_cons.1 hp with rfl | hp
    · obtain rfl : s.internal keyType parent = n :=
        Node.internal.inj (Option.some.inj (hs.1.symm.trans hn))
      obtain ⟨c, hkid, rfl⟩ := List.mem_map.1 hc
      exact ⟨mem_pages_of_mem_kids hkid c.page_mem_pages, _, (hs.2 c hkid).1, c.parent_node _ _⟩
    · obtain ⟨kid, hkid, hp⟩ := List.mem_flatMap.1 hp
      obtain ⟨hmem, hlink⟩ := ih (hs.2 kid hkid) hp
      exact ⟨mem_pages_of_mem_kids hkid hmem, hlink⟩

end Shape

namespace View

variable {v : View} {H : Nat} {s : Shape H} {key : Field} {p : PageId}

theorem OnWay.mem_pages (hs : v.HasShape s) (h : v.OnWay key p) : p ∈ s.pages := by
  induction h with
  | root =>
    rw [hs.root_eq]
    exact s.page_mem_pages
  | child _ hn hc ih => exact (hs.stored.exists_child ih hn (List.mem_of_getElem? hc)).1

theorem BesideWay.mem_pages (hs : v.HasShape s) (h : v.BesideWay key p) : p ∈ s.pages := by
  obtain ⟨q, n, hq, hn, i, hi, -⟩ := h
  exact (hs.stored.exists_child (hq.mem_pages hs) hn (List.mem_of_getElem? hi)).1

end View

namespace Change

variable {v : View} {H : Nat} {s : Shape H}

theorem Reaches.mem_pages {c : Change} {p : PageId} (hs : v.HasShape s) (h : c.Reaches v p) :
    p ∈ s.pages := by
  cases c with
  | insert r => exact View.OnWay.mem_pages hs h
  | update r => exact h.elim
  | delete key => exact h.elim (View.OnWay.mem_pages hs) (View.BesideWay.mem_pages hs)

end Change

/-! ### The zone of a change -/

namespace Route

variable {v : View} {z : Tree.Zone} {H h : Nat} {key : Field}

/-- The way that the key leads in a shape is its way on the pages. -/
theorem Follows.onWay {r : Route H h} {s : Shape h}
    (hr : r.Follows (fun n => Keys.firstLarger key n.keys) v.keyType s)
    (hroot : v.root = (r.plug s).page) (hstored : (r.plug s).Stored v.node v.keyType none) :
    v.OnWay key s.page := by
  induction r with
  | top =>
    have hroot : v.root = s.page := hroot
    exact hroot ▸ .root
  | down page left right above ih =>
    obtain ⟨hnext, habove⟩ := hr
    have hway := ih habove hroot hstored
    have hpage : v.node page =
        some (.internal ((fork page left s right).internal v.keyType above.parent)) :=
      (Route.stored_plug.1 hstored).1.1
    rw [page_fork] at hway
    have hnext : Keys.firstLarger key
        ((fork page left s right).internal v.keyType above.parent).keys = left.length := hnext
    exact .child hway hpage (hnext ▸ getChild_fork)

/-- A zone with all pages on the way of a key, and with links to their children, covers the way. -/
theorem Follows.covered {r : Route H h} {s : Shape h}
    (hr : r.Follows (fun n => Keys.firstLarger key n.keys) v.keyType s)
    (hroot : v.root = (r.plug s).page) (hstored : (r.plug s).Stored v.node v.keyType none)
    (hnode : ∀ p, v.OnWay key p → z.node p)
    (hlink : ∀ p n, v.OnWay key p → v.node p = some (.internal n) → ∀ c ∈ n.children, z.link c) :
    r.Covered z := by
  induction r with
  | top => exact trivial
  | down page left right above ih =>
    have hway := hr.2.onWay hroot hstored
    have hpage : v.node page =
        some (.internal ((fork page left s right).internal v.keyType above.parent)) :=
      (Route.stored_plug.1 hstored).1.1
    rw [page_fork] at hway
    refine ⟨.inl (hnode page hway), fun e he => .inr ?_, fun e he => .inr ?_,
      ih hr.2 hroot hstored⟩ <;> refine hlink page _ hway hpage _ ?_ <;> rw [internal_fork]
    · exact List.mem_append_left _ (List.mem_reverse.2 (List.mem_map_of_mem he))
    · exact List.mem_append_right _ (List.mem_cons_of_mem _ (List.mem_map_of_mem he))

/-- With the pages beside the way, and with links to their children, it flanks the way. -/
theorem Follows.flanked {r : Route H h} {s : Shape h}
    (hr : r.Follows (fun n => Keys.firstLarger key n.keys) v.keyType s)
    (hroot : v.root = (r.plug s).page) (hstored : (r.plug s).Stored v.node v.keyType none)
    (hnode : ∀ p, v.BesideWay key p → z.node p)
    (hlink : ∀ p n, v.BesideWay key p → v.node p = some (.internal n) → ∀ c ∈ n.children, z.link c) :
    r.Flanked z := by
  induction r with
  | top => exact trivial
  | @down h page left right above ih =>
    have hway := hr.2.onWay hroot hstored
    obtain ⟨hpage, hleft, hright, -⟩ := (Route.stored_plug.1 hstored).1
    rw [page_fork] at hway
    have hnext : Keys.firstLarger key
        ((fork page left s right).internal v.keyType above.parent).keys = left.length := hr.1
    have hspans : ∀ c : Shape h, v.BesideWay key c.page →
        c.Stored v.node v.keyType (some page) → z.Spans c := by
      intro c hc hstored
      refine ⟨.inl (hnode _ hc), fun p hp => .inr ?_⟩
      cases h with
      | zero => cases hp
      | succ h => exact hlink _ _ hc hstored.1 p hp
    refine ⟨fun e he => ?_, fun e he => ?_, ih hr.2 hroot hstored⟩
    · refine hspans e.1 ⟨page, _, hway, hpage, left.length - 1, ?_⟩
        (hleft e (List.mem_of_mem_head? he))
      cases left with
      | nil => cases he
      | cons e' left =>
        cases he
        refine ⟨?_, .inl hnext.symm⟩
        rw [internal_fork]
        simp
    · refine hspans e.2 ⟨page, _, hway, hpage, left.length + 1, ?_, .inr (by rw [hnext])⟩
        (hright e (List.mem_of_mem_head? he))
      rw [rightSibling_fork, he]
      rfl

end Route

namespace Change

variable {v : View} {H : Nat} {s : Shape H}

theorem tracks_zone (hs : v.HasShape s) {c : Change} {key : Field}
    (hreach : ∀ p, v.OnWay key p → c.Reaches v p) : (c.zone v).Tracks v s key := by
  rintro way w rfl hway
  exact ⟨hway.covered hs.root_eq hs.stored hreach fun p n hp hn child hchild =>
    ⟨p, n, hreach p hp, hn, hchild⟩, .inl (hreach _ (hway.onWay hs.root_eq hs.stored))⟩

/-- The root is no child of a node. -/
theorem ne_root_of_kidPages (hs : v.HasShape s) {p : PageId} (hp : p ∈ s.kidPages) : p ≠ v.root := by
  rw [hs.root_eq]
  rintro rfl
  cases H with
  | zero => cases hp
  | succ H =>
    obtain ⟨c, hc, heq⟩ := List.mem_map.1 hp
    refine Shape.page_not_mem_pagesBelow hs.nodup (List.mem_flatMap.2 ⟨c, hc, ?_⟩)
    exact heq ▸ c.page_mem_pages

/-- There is room in its zone for each change. -/
theorem admits_zone (hs : v.HasShape s) (hv : v.Valid) (c : Change) : (c.zone v).Admits v s c := by
  cases c with
  | insert r =>
    refine ⟨trivial, tracks_zone hs fun p hp => hp, fun p hp => ?_⟩
    -- the root has been there before
    rintro rfl
    have hroot : v.HasPage v.root := hs.stored.hasPage hv (hs.root_eq ▸ s.page_mem_pages)
    exact Nat.not_lt.2 hp hroot.2
  | update r => exact trivial
  | delete key =>
    refine ⟨trivial, tracks_zone hs fun p hp => .inl hp, fun p hp => ne_root_of_kidPages hs hp, ?_⟩
    rintro way w rfl hway
    exact hway.flanked hs.root_eq hs.stored (fun p hp => .inr hp) fun p n hp hn child hchild =>
      ⟨p, n, .inr hp, hn, hchild⟩

end Change

/-! ### What is written -/

namespace Tree

variable {t t' : Tree} {z : Zone} {k : Nat}

/-- A slot that is written moves the root, or it would also have been written where no page may become
the root. -/
theorem SlotWriteIn.moves_or_keeps (hw : SlotWriteIn z t t') :
    z.root t'.root ∨ t'.root = t.root ∧ SlotWriteIn { z with root := fun _ => False } t t' := by
  have hindex : ∀ {α : Type} {x : SlotAction α} {a : α} {u : Tree}, onIndex x t = .ok a u →
      u.root = t.root := by
    intro α x a u hx
    obtain ⟨f, -, rfl⟩ := onIndex_eq_ok_iff.1 hx
    rfl
  have hrecords : ∀ {α : Type} {x : SlotAction α} {a : α} {u : Tree}, onRecords x t = .ok a u →
      u.root = t.root := by
    intro α x a u hx
    obtain ⟨f, -, rfl⟩ := onRecords_eq_ok_iff.1 hx
    rfl
  cases hw with
  | putNode hz hpage h => exact .inr ⟨hindex h, .putNode hz hpage h⟩
  | relinkPage parent hz hpage hheader h =>
    exact .inr ⟨hindex h, .relinkPage parent hz hpage hheader h⟩
  | moveRoot hz h =>
    refine .inl ?_
    rw [Tree.moveRoot, run_bind, run_get] at h
    obtain ⟨⟨⟩, u, -, h⟩ := bind_eq_ok_iff.1 h
    cases h
    exact hz
  | newPage h => exact .inr ⟨hindex h, .newPage h⟩
  | releasePage hz h => exact .inr ⟨hindex h, .releasePage hz h⟩
  | addRecord hz hr h => exact .inr ⟨hrecords h, .addRecord hz hr h⟩
  | replaceRecord hz hr h => exact .inr ⟨hrecords h, .replaceRecord hz hr h⟩
  | eraseRecord hz h => exact .inr ⟨hrecords h, .eraseRecord hz h⟩

theorem WritesIn.moves_or_keeps (hw : WritesIn z k t t') :
    z.root t'.root ∨ t'.root = t.root ∧ WritesIn { z with root := fun _ => False } k t t' := by
  induction hw with
  | refl t => exact .inr ⟨rfl, .refl t⟩
  | reads i j _ ih => exact ih.imp_right fun ⟨hroot, hw⟩ => ⟨hroot, hw.reads i j⟩
  | write _ hslot ih =>
    rcases hslot.moves_or_keeps with hmoved | ⟨hroot, hslot⟩
    · exact .inl hmoved
    · exact ih.imp (fun h => hroot ▸ h) fun ⟨hkept, hw⟩ => ⟨hroot.trans hkept, hw.write hslot⟩

/-- A page as the writes in a zone leave it: written over, as it was, or with another parent link. -/
inductive LeftAt (t : Tree) (z : Zone) (p : PageId) (b : Bytes) : Prop
  | written (h : z.Holds p)
  | kept {page : Page} (hpage : PageFile.page? t.store.index p = some page) (hb : b = page.bytes)
  | relinked {page : Page} {header : NodeHeader} (parent : Option PageId) (h : z.link p)
      (hpage : PageFile.page? t.store.index p = some page) (hheader : page.header = .ok header)
      (hb : b = (page.setHeader { header with parent }).bytes)

/-- What is written leaves each page so. The header page counts where no page may become the root. -/
theorem preserves_leftAt (t : Tree) (z : Zone) :
    z.Preserves fun i b => ∀ p : PageId, p.number.toNat = i → (p = .header → ∀ q, ¬ z.root q) →
      t.LeftAt z p b where
  node {n page} hn _ p hp _ := by
    obtain rfl : p = n.page := congrArg PageId.mk (UInt64.toNat_inj.1 hp)
    exact .written hn
  link {q page header} parent hq hheader h p hp hroot := by
    obtain rfl : p = q := congrArg PageId.mk (UInt64.toNat_inj.1 hp)
    rcases hq with hq | hq
    · exact .written hq
    · cases h p rfl hroot with
      | written h => exact .written h
      | kept hpage hb =>
        cases Page.ext_bytes hb
        exact .relinked parent hq hpage hheader rfl
      | relinked parent' _ hpage hheader' hb =>
        cases Page.ext_bytes hb
        rw [Page.header_setHeader] at hheader
        cases hheader
        exact .relinked parent hq hpage hheader' (by rw [Page.setHeader_setHeader])
  header {keyType root} hmoved p hp hroot :=
    absurd hmoved (hroot (congrArg PageId.mk (UInt64.toNat_inj.1 hp)) root)
  zeros {q} hq p hp _ := by
    obtain rfl : p = q := congrArg PageId.mk (UInt64.toNat_inj.1 hp)
    exact .written hq

/-- There is a page in every block. -/
theorem exists_page_of_holds {f : SlotFile} {blocks : List Bytes}
    (h : f.Holds PageFile.layout [] blocks) {p : PageId} {b : Bytes}
    (hb : blocks[p.number.toNat]? = some b) :
    ∃ page, PageFile.page? f p = some page ∧ page.bytes = b := by
  have hlen : b.length = pageSize := h.length_block b (List.mem_of_getElem? hb)
  refine ⟨⟨b, hlen⟩, ?_, rfl⟩
  rw [page?_of_holds h, hb, Option.bind_some, Page.ofBytes, dif_pos hlen]
  rfl

/-- A page that has been there before is still there. -/
theorem WritesIn.exists_leftAt (hw : WritesIn z k t t') (hstep : t.InStep)
    (hfresh : z.fresh ≤ t.pageCount.toNat) {p : PageId} (hp : p.number.toNat < t.pageCount.toNat)
    (hroot : p = .header → ∀ q, ¬ z.root q) :
    ∃ page, PageFile.page? t'.store.index p = some page ∧ t.LeftAt z p page.bytes := by
  obtain ⟨blocks, hi⟩ := hstep.index
  have hkept : t.store.index.Rows PageFile.layout [] fun i b => ∀ p : PageId,
      p.number.toNat = i → (p = .header → ∀ q, ¬ z.root q) → t.LeftAt z p b := by
    refine ⟨blocks, hi, ?_⟩
    rintro i b hb p rfl -
    obtain ⟨page, hpage, rfl⟩ := exists_page_of_holds hi hb
    exact .kept hpage rfl
  obtain ⟨blocks', hi', hleft⟩ := hw.rows (t.preserves_leftAt z) hstep.opened hfresh hkept
  have hlt : p.number.toNat < blocks'.length :=
    hi'.count_eq ▸ Nat.lt_of_lt_of_le hp (hw.pageCount_le hstep.opened)
  have hb := List.getElem?_eq_getElem hlt
  obtain ⟨page, hpage, hbytes⟩ := exists_page_of_holds hi' hb
  exact ⟨page, hpage, hbytes ▸ hleft _ _ hb p rfl hroot⟩

/-- Only the parent link of the page has changed: no other bytes have, and the node on the page is the
same, but for its parent. -/
def Relinked (t t' : Tree) (p : PageId) : Prop :=
  ∃ page page' : Page, PageFile.page? t.store.index p = some page ∧
    PageFile.page? t'.store.index p = some page' ∧
    (∀ i, i < 2 ∨ 10 < i → page'.bytes[i]? = page.bytes[i]?) ∧
    ∃ n parent, t.node? p = some n ∧ t'.node? p = some (n.withParent parent) ∧ parent ≠ n.parent

/-- A page that has got another parent link, with a node on it that had a parent. -/
theorem relinked_of_setHeader {p : PageId} {page : Page} {header : NodeHeader}
    {parent : Option PageId} (hpage : PageFile.page? t.store.index p = some page)
    (hheader : page.header = .ok header)
    (hpage' : PageFile.page? t'.store.index p = some (page.setHeader { header with parent }))
    (hne : page.setHeader { header with parent } ≠ page) {n : Node} {q : PageId}
    (hn : t.node? p = some n) (hq : n.parent = some q) : t.Relinked t' p := by
  have hfree : ¬ p.isHeader := fun he => by
    rw [node?, if_pos he] at hn
    cases hn
  have hnode := hn
  rw [node?, if_neg hfree, hpage, Option.bind_some] at hnode
  obtain ⟨hof, hid⟩ := Option.filter_eq_some_iff.1 hnode
  obtain ⟨hheader', hof'⟩ := Node.ofPage_setHeader (toOption_eq_some_iff.1 hof) parent
  cases hheader.symm.trans hheader'
  refine ⟨page, _, hpage, hpage', fun i hi => Page.getElem?_setHeader hheader parent hi, n, parent,
    hn, ?_, fun hsame => hne ?_⟩
  · rw [node?, if_neg hfree, hpage', Option.bind_some, toOption_eq_some_iff.2 hof']
    refine Option.filter_eq_some_iff.2 ⟨rfl, ?_⟩
    rw [page_withParent]
    exact hid
  · -- a link to a parent is written in one way only
    rw [hsame]
    exact Page.setHeader_eq_self hheader hq

end Tree

/-! ### What is left alone -/

namespace Tree

variable {t : Tree}

theorem finalState_onRecords {α : Type} (x : SlotAction α) (t : Tree) :
    (finalState (onRecords x t)).store.index = t.store.index := by
  rw [onRecords, onStore, Store.onRecords, finalState_within, finalState_within]

/-- Replacing a record only reads pages. -/
theorem index_replaceRecord (ht : t.Opened) (r : Record) :
    (finalState (replaceRecord r t)).store.index.bytes = t.store.index.bytes := by
  rw [replaceRecord, run_bind]
  rcases findLeaf_cases ht r.key with ⟨leaf, i, j, hleaf⟩ | ⟨e, i, j, hleaf⟩
  · rw [hleaf]
    dsimp only
    cases Keys.indexOf? r.key leaf.keys with
    | none => rfl
    | some n =>
      dsimp only
      rw [run_bind]
      cases Positions.get leaf.records n with
      | error f => rfl
      | ok id =>
        have hbytes := congrArg SlotFile.bytes
          (finalState_onRecords (RecordFile.replace id r) (t.addReads i j))
        exact hbytes
  · rw [hleaf]
    rfl

/-- What a change does to the pages that have been there before. -/
structure WritesNear (t t' : Tree) (c : Change) : Prop where
  header : PageFile.page? t'.store.index .header ≠ PageFile.page? t.store.index .header →
    t'.root ≠ t.root
  page {p : PageId} (hp : p ≠ .header) (hlt : p.number.toNat < t.pageCount.toNat)
    (hne : PageFile.page? t'.store.index p ≠ PageFile.page? t.store.index p) :
    c.Reaches t.view p ∨ c.ReachesParent t.view p ∧ t.Relinked t' p
  update {r : Record} (hc : c = .update r) :
    t'.store.index.bytes.contents = t.store.index.bytes.contents

/-- A page that the writes in the zone of a change have changed. -/
theorem reached_of_leftAt {t' : Tree} {H : Nat} {s : Shape H} (hs : t.view.HasShape s) {c : Change}
    {p : PageId} (hlt : p.number.toNat < t.pageCount.toNat) {page : Page}
    (hpage : PageFile.page? t'.store.index p = some page)
    (hleft : t.LeftAt (c.zone t.view) p page.bytes)
    (hne : PageFile.page? t'.store.index p ≠ PageFile.page? t.store.index p) :
    c.Reaches t.view p ∨ c.ReachesParent t.view p ∧ t.Relinked t' p := by
  cases hleft with
  | written h => exact .inl (h.resolve_right (Nat.not_le.2 hlt))
  | kept hold hb => exact absurd (hpage.trans (Page.ext_bytes hb ▸ hold.symm)) hne
  | relinked parent h hold hheader hb =>
    obtain rfl := Page.ext_bytes hb
    refine .inr ⟨h, ?_⟩
    obtain ⟨q, n, hq, hn, hp⟩ := h
    obtain ⟨-, m, hm, hparent⟩ := hs.stored.exists_child (hq.mem_pages hs) hn hp
    refine relinked_of_setHeader hold hheader hpage (fun heq => hne ?_) hm hparent
    rw [hpage, hold, heq]

/-- The header page is none of those that a change may write over. -/
theorem not_links_header {H : Nat} {s : Shape H} (hs : t.view.HasShape s) (c : Change) :
    ¬ (c.zone t.view).Links .header := by
  have hpage : ∀ p ∈ s.pages, t.view.HasPage p := fun p hp => hs.stored.hasPage t.valid_view hp
  rintro ((hreach | hfresh) | ⟨q, n, hq, hn, hchild⟩)
  · exact (hpage _ (hreach.mem_pages hs)).1 rfl
  · have hlt : 0 < t.view.pageCount := Nat.lt_of_le_of_lt (Nat.zero_le _) (hpage _ s.page_mem_pages).2
    exact absurd hfresh (Nat.not_le.2 hlt)
  · exact (hpage _ (hs.stored.exists_child (hq.mem_pages hs) hn hchild).1).1 rfl

/-- An update leaves the index file as it is. -/
theorem index_update (ht : t.Opened) (r : Record) :
    (finalState ((Change.update r).run t)).store.index.bytes = t.store.index.bytes := by
  rcases (Change.update r).finalState_run_cases t with heq | ⟨-, b, heq⟩
  · rw [heq]
  · rw [heq]
    exact index_replaceRecord ht r

/-- Whether or not it fails, a change of a well-formed tree changes a page only if it is on the way
that the key leads, or beside it if a key is deleted, or below such a page, and then nothing but its
parent link. The header page changes only if the root does, and an update changes no page. -/
theorem writes_near_way (hstep : t.InStep) (hwell : t.WellFormed) (c : Change) :
    t.WritesNear (finalState (c.run t)) c := by
  obtain ⟨H, s, hs⟩ := hwell
  have hroot := hs.stored.hasPage t.valid_view (hs.root_eq ▸ s.page_mem_pages)
  obtain ⟨k, -, u, needsRepair, hw, heq⟩ :=
    c.exists_writesIn hstep hs (c.admits_zone hs t.valid_view) (Nat.le_refl _)
  refine ⟨fun hne => ?_, fun hp hlt hne => ?_, ?_⟩
  · rw [heq] at hne ⊢
    rcases hw.moves_or_keeps with hmoved | ⟨-, hw⟩
    · exact hmoved
    · have hpos : PageId.header.number.toNat < t.pageCount.toNat :=
        Nat.lt_of_le_of_lt (Nat.zero_le _) hroot.2
      obtain ⟨page, hpage, hleft⟩ := hw.exists_leftAt hstep (Nat.le_refl _) hpos fun _ _ h => h
      cases hleft with
      | written h => exact absurd (.inl h) (not_links_header hs c)
      | kept hold hb => exact absurd (hpage.trans (Page.ext_bytes hb ▸ hold.symm)) hne
      | relinked parent h => exact absurd (.inr h) (not_links_header hs c)
  · rw [heq] at hne ⊢
    obtain ⟨page, hpage, hleft⟩ := hw.exists_leftAt hstep (Nat.le_refl _) hlt fun h => absurd h hp
    exact reached_of_leftAt hs hlt hpage hleft hne
  · rintro r rfl
    exact congrArg FileBytes.contents (index_update hstep.opened r)

/-- A sixth record splits the root of a new tree, and when one of the six is deleted, the root gives
way. -/
theorem writes_near_way_newStore : ∃ t t' t'' : Tree,
    finalState ((Change.insert (scored 6 0)).run t) = t' ∧
    finalState ((Change.delete (.int32 1)).run t') = t'' ∧
    answer (height t) = .ok 1 ∧ answer (height t') = .ok 2 ∧ answer (height t'') = .ok 1 ∧
    t.WritesNear t' (.insert (scored 6 0)) ∧ t'.WritesNear t'' (.delete (.int32 1)) := by
  obtain ⟨t, t', t'', ht', ht'', ⟨hfive, hone⟩, ⟨hsix, htwo, -⟩, hone'⟩ := exists_split_newStore
  have hsplit := writes_near_way hfive.inStep hfive.view.wellFormed (.insert (scored 6 0))
  have hmerge := writes_near_way hsix.inStep hsix.view.wellFormed (.delete (.int32 1))
  rw [ht'] at hsplit
  rw [ht''] at hmerge
  exact ⟨t, t', t'', ht', ht'', hone, htwo, hone', hsplit, hmerge⟩

end Tree

end RecordIndex
