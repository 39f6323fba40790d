import RecordIndex.Proofs.Damage.Pages
import RecordIndex.Proofs.Effects

/-!
# Actions that do no harm

On a damaged file an action may fail at any point, but it should fail with an error and leave the
header page in order.

* `Tree.Leads t t'`: what every such action keeps, however it ends. If page 0 names the root and the
  key type of the handle before, it does so afterwards, and it is then either the page that it was or
  one that `Tree.moveRoot` has written.
* `Tree.Safe x t Q`: run on `t`, the action does not end with a fault, leads to a tree that `Leads`
  allows, and answers as `Q` says if it answers.

The lemmas below `Safe` say of each single step that it is safe, and what it does to the nodes that
the file shows. A node is written only to a page that has been read or has just been added
(`Tree.Held`), so that the other pages stay as they are.
-/

namespace RecordIndex

open RecordIndex.Action

/-- Writing a node whose keys fit their slots is no fault. -/
theorem Node.isError_of_toPage {n : Node} {e : Failure} (hkeys : ∀ k ∈ n.keys, k.Fits)
    (h : n.toPage = .error e) : e.IsError := by
  by_cases hcounts : n.CountsAgree
  · rw [toPage_of_countsAgree hcounts, encodeNode] at h
    split_ifs at h
    · cases h
      exact ⟨_, rfl⟩
    · split at h
      · cases h
        exact ⟨_, rfl⟩
      · obtain ⟨parts, hparts⟩ := (Field.mapM_encode_isOk_iff n.keys).2 hkeys
        rw [hparts] at h
        cases h
  · obtain ⟨cause, hcause⟩ := toPage_of_not_countsAgree hcounts
    rw [hcause] at h
    cases h
    exact ⟨_, rfl⟩

namespace Tree

variable {α β : Type} {t t' t'' : Tree} {p q : PageId} {Q : α → Tree → Prop} {R : β → Tree → Prop}

/-! ### What is kept -/

/-- The handle knows that the index file is laid out in pages, and of no more than a file can hold.
Nothing is said of the bytes: a tree that is opened is like this whatever they are (`opened_of_load`
and `Opened.paged`). -/
def Paged (t : Tree) : Prop := PageFile.Paged t.store.index

theorem Opened.paged (h : t.Opened) : t.Paged := ⟨h.layout_eq, h.pages_le⟩

/-- The page can be read. -/
def Readable (t : Tree) (p : PageId) : Prop := PageFile.Readable t.store.index p

/-- The page can be read and is not the header page. -/
def Held (t : Tree) (p : PageId) : Prop := p ≠ .header ∧ t.Readable p

/-- All pages that the handle knows of can be read. -/
def Complete (t : Tree) : Prop := ∀ p, p.number.toNat < t.pageCount.toNat → t.Readable p

/-- The header page, if it can be read. -/
def headerPage? (t : Tree) : Option Page := PageFile.page? t.store.index .header

/-- Page 0 names the key type and the root that the handle knows. -/
def Headed (t : Tree) : Prop :=
  ∃ page, t.headerPage? = some page ∧ HeaderPage.ofPage page = .ok ⟨t.keyType, t.root⟩

theorem headed_iff : t.Headed ↔ t.view.header = some ⟨t.keyType, t.root⟩ := by
  simp only [Headed, headerPage?, view, Option.bind_eq_some_iff, toOption_eq_some_iff]

/-- The root of a tree with a header page in order is another page. -/
theorem Headed.root_ne (h : t.Headed) : t.root ≠ .header := by
  obtain ⟨page, -, hpage⟩ := h
  exact (HeaderPage.root_and_mark_of_ofPage hpage).1

/-- What a harmless action keeps. -/
structure Leads (t t' : Tree) : Prop where
  paged : t'.Paged
  keyType_eq : t'.keyType = t.keyType
  readable : ∀ {p}, t.Readable p → t'.Readable p
  complete : t.Complete → t'.Complete
  headed : t.Headed → t'.Headed
  headerPage : t.Headed → t'.headerPage? = t.headerPage? ∨
    t'.headerPage? = some (HeaderPage.toPage ⟨t'.keyType, t'.root⟩)

theorem Leads.refl (ht : t.Paged) : t.Leads t := ⟨ht, rfl, id, id, id, fun _ => .inl rfl⟩

theorem Leads.trans (h : t.Leads t') (h' : t'.Leads t'') : t.Leads t'' where
  paged := h'.paged
  keyType_eq := h'.keyType_eq.trans h.keyType_eq
  readable hp := h'.readable (h.readable hp)
  complete hc := h'.complete (h.complete hc)
  headed hh := h'.headed (h.headed hh)
  headerPage hh := by
    rcases h'.headerPage (h.headed hh) with hsame | hnew
    · rcases h.headerPage hh with hsame' | hnew'
      · exact .inl (hsame.trans hsame')
      · -- the page that was written first is still there, so that it names the root of the last tree
        obtain ⟨page, hpage, hof⟩ := h'.headed (h.headed hh)
        rw [hsame, hnew'] at hpage
        cases hpage
        rw [HeaderPage.ofPage_toPage (h.headed hh).root_ne] at hof
        refine .inr (hsame.trans (hnew'.trans ?_))
        rw [Except.ok.inj hof]
    · exact .inr hnew

theorem Leads.held (h : t.Leads t') (hp : t.Held p) : t'.Held p := ⟨hp.1, h.readable hp.2⟩

/-- Reading a page keeps everything. -/
theorem leads_addReads (ht : t.Paged) (i j : UInt64) : t.Leads (t.addReads i j) :=
  ⟨⟨ht.layout_eq, ht.pages_le⟩, rfl, id, id, id, fun _ => .inl rfl⟩

/-! ### Harmless actions -/

/-- The action ends without a fault, and leads to a tree that `Leads` allows. If it answers, `Q` holds
of the answer and of the tree that is left. -/
def Safe (x : TreeAction α) (t : Tree) (Q : α → Tree → Prop) : Prop :=
  Concludes x t (fun a t' => t.Leads t' ∧ Q a t') fun e t' => t.Leads t' ∧ e.IsError

theorem Safe.mono {x : TreeAction α} {P : α → Tree → Prop} (h : Safe x t Q)
    (hP : ∀ a t', t.Leads t' → Q a t' → P a t') : Safe x t P :=
  Concludes.mono h (fun a t' ha => ⟨ha.1, hP a t' ha.1 ha.2⟩) fun _ _ he => he

theorem Safe.ne_fault {x : TreeAction α} (h : Safe x t Q)
    (f : Fault) : answer (x t) ≠ .error (.fault f) := by
  refine Concludes.answer_ne (F := Failure.IsError) (Concludes.mono h (fun _ _ h => h)
    fun _ _ he => he.2) ?_
  rintro ⟨e, he⟩
  cases he

theorem safe_pure {a : α} (ht : t.Paged) (h : Q a t) : Safe (pure a) t Q := ⟨.refl ht, h⟩

theorem safe_fail (ht : t.Paged) (e : Error) : Safe (fail e) t Q := ⟨.refl ht, e, rfl⟩

theorem safe_ofExcept (ht : t.Paged) {x : Except Error α} (h : ∀ a, x = .ok a → Q a t) :
    Safe (ofExcept x) t Q :=
  concludes_ofExcept (fun a ha => ⟨.refl ht, h a ha⟩) fun e _ => ⟨.refl ht, e, rfl⟩

theorem safe_ofResult (ht : t.Paged) {x : Except Failure α} (h : ∀ a, x = .ok a → Q a t)
    (herror : ∀ e, x = .error e → e.IsError) : Safe (ofResult x) t Q :=
  concludes_ofResult (fun a ha => ⟨.refl ht, h a ha⟩) fun e he => ⟨.refl ht, herror e he⟩

/-- A position that is in range. -/
theorem safe_ofChecked (ht : t.Paged) {x : Except Fault α} {P : α → Prop}
    (hx : ∃ a, x = .ok a ∧ P a) : Safe (ofChecked x) t fun a t' => t' = t ∧ P a := by
  obtain ⟨a, rfl, ha⟩ := hx
  exact safe_pure ht ⟨rfl, ha⟩

theorem Safe.bind {x : TreeAction α} {f : α → TreeAction β} (hx : Safe x t Q)
    (hf : ∀ a t', t.Leads t' → Q a t' → Safe (f a) t' R) : Safe (x >>= f) t R :=
  Concludes.bind hx fun a t' ha => Concludes.mono (hf a t' ha.1 ha.2)
    (fun _ _ hb => ⟨ha.1.trans hb.1, hb.2⟩) fun _ _ he => ⟨ha.1.trans he.1, he.2⟩

theorem Safe.map {x : TreeAction α} {f : α → β} (hx : Safe x t fun a => R (f a)) :
    Safe (f <$> x) t R := by
  rw [map_eq_pure_bind]
  exact hx.bind fun a t' ht' h => safe_pure ht'.paged h

theorem safe_get_bind {f : Tree → TreeAction β} (h : Safe (f t) t R) : Safe (get >>= f) t R := h

/-- An action on the index file. -/
theorem concludes_onIndex {x : SlotAction α} {P : α → SlotFile → Prop}
    {E : Failure → SlotFile → Prop} (h : Concludes x t.store.index P E) :
    Concludes (onIndex x) t
      (fun a t' => ∃ g, P a g ∧ t' = { t with store := { t.store with index := g } })
      fun e t' => ∃ g, E e g ∧ t' = { t with store := { t.store with index := g } } := by
  unfold Concludes onIndex onStore Store.onIndex
  rw [run_within, run_within]
  cases hx : x t.store.index with
  | ok a g => exact ⟨g, h.of_ok hx, rfl⟩
  | error e g => exact ⟨g, h.of_error hx, rfl⟩

/-- An action on the record file. -/
theorem safe_onRecords (ht : t.Paged) {x : SlotAction α} (h : Faultless x) :
    Safe (onRecords x) t fun _ t' => t'.store.index = t.store.index := by
  have hleads : ∀ f, t.Leads { t with store := { t.store with records := f } } := fun f =>
    ⟨ht, rfl, id, id, id, fun _ => .inl rfl⟩
  unfold Safe Concludes onRecords onStore Store.onRecords
  rw [run_within, run_within]
  cases hx : x t.store.records with
  | ok a f => exact ⟨hleads f, rfl⟩
  | error e f => exact ⟨hleads f, (h _).of_error hx⟩

/-! ### Reading nodes -/

/-- The file shows the same nodes, and the handle knows of as many pages. -/
structure SameNodes (t t' : Tree) : Prop where
  node?_eq : t'.node? = t.node?
  pageCount_eq : t'.pageCount = t.pageCount

theorem SameNodes.trans (h : t.SameNodes t') (h' : t'.SameNodes t'') : t.SameNodes t'' :=
  ⟨h'.node?_eq.trans h.node?_eq, h'.pageCount_eq.trans h.pageCount_eq⟩

theorem sameNodes_of_index_eq (h : t'.store.index = t.store.index) : t.SameNodes t' where
  node?_eq := by
    unfold node?
    rw [h]
  pageCount_eq := by
    unfold pageCount
    rw [h]

/-- A page that shows a node can be written. -/
theorem held_of_node? {n : Node} (h : t.node? p = some n) : t.Held p := by
  unfold node? at h
  split_ifs at h with hp
  obtain ⟨page, hpage, -⟩ := Option.bind_eq_some_iff.1 h
  exact ⟨fun he => hp (by rw [he]; rfl), page, hpage⟩

theorem Safe.with_ok {x : TreeAction α} {P : α → Tree → Prop} (h : Safe x t Q)
    (hP : ∀ a t', x t = .ok a t' → P a t') : Safe x t P :=
  Concludes.with_ok h fun a t' hx => ⟨(Concludes.of_ok h hx).1, hP a t' hx⟩

/-- No page is read, or one that is there. -/
theorem concludes_fetchPage (p : PageId) (t : Tree) :
    Concludes (onIndex (PageFile.fetch p)) t
      (fun page t' => PageFile.page? t.store.index p = some page ∧ t' = t.addReads 1 0)
      fun e t' => (t' = t ∨ t' = t.addReads 1 0 ∧ p.number.toNat < t.pageCount.toNat) ∧
        e.IsError := by
  refine Concludes.mono (concludes_onIndex (PageFile.concludes_fetch p t.store.index)) ?_ ?_
  · rintro page t' ⟨_, ⟨hpage, rfl⟩, rfl⟩
    exact ⟨hpage, addReads_index t 1⟩
  · rintro e t' ⟨g, ⟨hg, he⟩, rfl⟩
    refine ⟨?_, he⟩
    rcases hg with rfl | ⟨rfl, hp⟩
    · exact .inl rfl
    · exact .inr ⟨addReads_index t 1, hp⟩

theorem safe_fetchPage (ht : t.Paged) (p : PageId) :
    Safe (onIndex (PageFile.fetch p)) t fun page t' =>
      PageFile.page? t.store.index p = some page ∧ t' = t.addReads 1 0 := by
  refine (concludes_fetchPage p t).mono ?_ ?_
  · rintro page t' ⟨hpage, rfl⟩
    exact ⟨leads_addReads ht 1 0, hpage, rfl⟩
  · rintro e t' ⟨rfl | ⟨rfl, -⟩, he⟩
    · exact ⟨.refl ht, he⟩
    · exact ⟨leads_addReads ht 1 0, he⟩

theorem safe_fetchNode (ht : t.Paged) (p : PageId) :
    Safe (fetchNode p) t fun n t' => t.SameNodes t' ∧ t.node? p = some n := by
  refine Safe.with_ok (Q := fun _ _ => True) ?_ fun n t' h => ?_
  · unfold fetchNode
    split_ifs
    · exact safe_fail ht _
    · refine (safe_fetchPage ht p).bind fun page t₁ ht₁ _ => ?_
      refine (safe_ofExcept (Q := fun _ _ => True) ht₁.paged fun _ _ => trivial).bind
        fun n t₂ ht₂ _ => ?_
      split_ifs
      · exact safe_pure ht₂.paged trivial
      · exact safe_fail ht₂.paged _
  · obtain ⟨hn, rfl⟩ := fetchNode_eq_ok_iff.1 h
    exact ⟨⟨rfl, rfl⟩, hn⟩

theorem safe_fetchLeaf (ht : t.Paged) (p : PageId) :
    Safe (fetchLeaf p) t fun l t' => t.SameNodes t' ∧ t.node? p = some (.leaf l) := by
  refine (safe_fetchNode ht p).bind fun n t' ht' ⟨hsame, hn⟩ => ?_
  refine safe_ofExcept ht'.paged fun l hl => ⟨hsame, ?_⟩
  cases n with
  | leaf l' =>
    cases hl
    exact hn
  | internal n => cases hl

theorem safe_fetchInternal (ht : t.Paged) (p : PageId) :
    Safe (fetchInternal p) t fun n t' => t.SameNodes t' ∧ t.node? p = some (.internal n) := by
  refine (safe_fetchNode ht p).bind fun n t' ht' ⟨hsame, hn⟩ => ?_
  refine safe_ofExcept ht'.paged fun m hm => ⟨hsame, ?_⟩
  cases n with
  | leaf l => cases hm
  | internal n' =>
    cases hm
    exact hn

/-! ### Writing nodes -/

/-- The file shows `n?` on page `p`, and what it showed on every other page. -/
structure NodeSet (t : Tree) (p : PageId) (n? : Option Node) (t' : Tree) : Prop where
  node?_eq : t'.node? = Function.update t.node? p n?
  pageCount_eq : t'.pageCount = t.pageCount

section Write

variable {page : Page} {g : SlotFile}

/-- The header page stays as it is if another page is written. -/
theorem leads_rewritten (ht : t.Paged) (h : PageFile.Rewritten t.store.index p page g)
    (hp : t.Headed → p ≠ .header) :
    t.Leads { t with store := { t.store with index := g } } := by
  have hheader : t.Headed → PageFile.page? g .header = t.headerPage? := by
    rintro hh
    have ⟨page', hpage', _⟩ := hh
    exact h.page?_of_ne ht (hp hh).symm
      (.inl (PageFile.Readable.length_le ht ⟨page', hpage'⟩))
  refine ⟨h.paged ht, rfl, h.readable ht, fun hc q hq => ?_, fun hh => ?_,
    fun hh => .inl (hheader hh)⟩
  · rw [pageCount, h.count_eq] at hq
    exact h.readable ht (hc q hq)
  · have ⟨page', hpage', hof⟩ := hh
    exact ⟨page', (hheader hh).trans hpage', hof⟩

/-- What a written page shows. -/
theorem nodeSet_rewritten (ht : t.Paged) (h : PageFile.Rewritten t.store.index p page g)
    (hp : t.Readable p) : t.NodeSet p
      (if p.isHeader then none else (Node.ofPage page).toOption.filter fun n => n.page = p)
      { t with store := { t.store with index := g } } where
  node?_eq := by
    funext q
    by_cases hq : q = p
    · rw [hq, Function.update_self, node?, h.page?_self ht]
      rfl
    · rw [Function.update_of_ne hq, node?, h.page?_other ht hp hq]
      rfl
  pageCount_eq := h.count_eq

theorem safe_putPage (ht : t.Paged) (page : Page) (hp : t.Headed → p ≠ .header) :
    Safe (onIndex (PageFile.put p page)) t fun _ t' =>
      ∃ g, PageFile.Rewritten t.store.index p page g ∧
        t' = { t with store := { t.store with index := g } } := by
  refine Concludes.mono (concludes_onIndex (PageFile.concludes_put ht p page)) ?_ ?_
  · rintro - t' ⟨g, hg, rfl⟩
    exact ⟨leads_rewritten ht hg hp, g, hg, rfl⟩
  · rintro e t' ⟨_, ⟨rfl, he⟩, rfl⟩
    exact ⟨.refl ht, he⟩

/-- A node is shown on the page that it has been written to. -/
theorem safe_putNode (ht : t.Paged) {n : Node} (hkeys : ∀ k ∈ n.keys, k.Fits)
    (hn : t.Held n.page) :
    Safe (ofResult n.toPage >>= fun page => onIndex (PageFile.put n.page page)) t
      fun _ t' => t.NodeSet n.page (some n) t' := by
  refine (safe_ofResult (Q := fun page t' => t' = t ∧ n.toPage = .ok page) ht
    (fun _ h => ⟨rfl, h⟩) fun _ => Node.isError_of_toPage hkeys).bind ?_
  rintro page _ - ⟨rfl, hpage⟩
  refine (safe_putPage ht page fun _ => hn.1).mono ?_
  rintro - _ - ⟨g, hg, rfl⟩
  have hset := nodeSet_rewritten ht hg hn.2
  have hheader : ¬ n.page.isHeader = true := fun h => hn.1 (beq_iff_eq.1 h)
  rw [if_neg hheader, Node.ofPage_of_toPage hpage] at hset
  simpa [Except.toOption, Option.filter] using hset

theorem safe_putLeaf (ht : t.Paged) {l : Leaf} (hkeys : ∀ k ∈ l.keys, k.Fits)
    (hl : t.Held l.page) :
    Safe (putLeaf l) t fun _ t' => t.NodeSet l.page (some (.leaf l)) t' :=
  safe_putNode (n := .leaf l) ht hkeys hl

theorem safe_putInternal (ht : t.Paged) {n : Internal} (hkeys : ∀ k ∈ n.keys, k.Fits)
    (hn : t.Held n.page) :
    Safe (putInternal n) t fun _ t' => t.NodeSet n.page (some (.internal n)) t' :=
  safe_putNode (n := .internal n) ht hkeys hn

/-- A page that has been given up shows no node. -/
theorem safe_releasePage (ht : t.Paged) (hp : t.Held p) :
    Safe (releasePage p) t fun _ t' => t.NodeSet p none t' := by
  refine Concludes.mono (concludes_onIndex (PageFile.concludes_erase ht p)) ?_ ?_
  · rintro - t' ⟨g, hg, rfl⟩
    refine ⟨leads_rewritten ht hg fun _ => hp.1, ?_⟩
    have hset := nodeSet_rewritten ht hg hp.2
    rw [ofPage_zero] at hset
    simpa using hset
  · rintro e t' ⟨_, ⟨rfl, he⟩, rfl⟩
    exact ⟨.refl ht, he⟩

/-- What is shown on a page on which only the parent link has been changed. -/
theorem relinked_node? {header : NodeHeader} (h : page.header = .ok header) (p : PageId)
    (parent : Option PageId) :
    ((Node.ofPage (page.setHeader { header with parent })).toOption.filter fun n => n.page = p) =
      ((Node.ofPage page).toOption.filter fun n => n.page = p).map (Node.withParent parent) := by
  rw [Node.ofPage_setParent h]
  cases Node.ofPage page with
  | ok n =>
    have hpage : (n.withParent parent).page = n.page := by cases n <;> rfl
    by_cases hid : n.page = p <;> simp [Except.map, Except.toOption, Option.filter, hid, hpage]
  | error e => rfl

/-- The parent link of the node on the page changes, and no other node does. A page that could be read
as a header page is refused, and it is none afterwards either. -/
theorem safe_relink (ht : t.Paged) (p : PageId) (parent : Option PageId) :
    Safe (relink p parent) t fun _ t' =>
      t.NodeSet p ((t.node? p).map (Node.withParent parent)) t' ∧ (t'.Headed → p ≠ .header) := by
  refine (safe_fetchPage ht p).bind ?_
  rintro page _ ht₁ ⟨hpage, rfl⟩
  refine (safe_ofExcept (Q := fun header t' => t' = t.addReads 1 0 ∧ page.header = .ok header)
    ht₁.paged fun _ h => ⟨rfl, h⟩).bind ?_
  rintro header _ - ⟨rfl, hheader⟩
  have hne : (t.addReads 1 0).Headed → p ≠ .header := by
    rintro ⟨page', hpage', hof⟩ rfl
    obtain rfl : page' = page := Option.some.inj (hpage'.symm.trans hpage)
    exact HeaderPage.ofPage_ne_ok_of_header hheader hof
  refine (safe_putPage ht₁.paged _ hne).mono ?_
  rintro - _ - ⟨g, hg, rfl⟩
  have hset := nodeSet_rewritten ht₁.paged hg ⟨page, hpage⟩
  refine ⟨?_, ?_⟩
  · have hnode : (if p.isHeader then none
        else (Node.ofPage (page.setHeader { header with parent })).toOption.filter fun n =>
          n.page = p) = (t.node? p).map (Node.withParent parent) := by
      unfold node?
      rw [hpage]
      split_ifs
      · rfl
      · exact relinked_node? hheader p parent
    rw [hnode] at hset
    exact ⟨hset.node?_eq, hset.pageCount_eq⟩
  · rintro ⟨page', hpage', hof⟩ rfl
    obtain rfl := Option.some.inj (hpage'.symm.trans (hg.page?_self ht₁.paged))
    exact HeaderPage.ofPage_ne_ok_of_header (Page.header_setHeader page _) hof

/-- The new header page names the new root. -/
theorem safe_moveRoot (ht : t.Paged) (hp : t.Headed → p ≠ .header) :
    Safe (moveRoot p) t fun _ t' => t.SameNodes t' := by
  unfold moveRoot
  refine safe_get_bind ?_
  have hput : Concludes (onIndex (PageFile.put .header (HeaderPage.toPage ⟨t.keyType, p⟩))) t
      (fun _ t' => ∃ g, PageFile.Rewritten t.store.index .header (HeaderPage.toPage ⟨t.keyType, p⟩) g ∧
        t' = { t with store := { t.store with index := g } })
      fun e t' => t.Leads t' ∧ e.IsError := by
    refine Concludes.mono (concludes_onIndex (PageFile.concludes_put ht .header _))
      (fun _ _ h => h) ?_
    rintro e t' ⟨_, ⟨rfl, he⟩, rfl⟩
    exact ⟨.refl ht, he⟩
  refine Concludes.bind hput ?_
  rintro - _ ⟨g, hg, rfl⟩
  have hself := hg.page?_self ht
  refine ⟨⟨hg.paged ht, rfl, hg.readable ht, fun hc q hq => ?_, fun hh => ?_, fun _ => .inr hself⟩,
    ?_, hg.count_eq⟩
  · have hq' : q.number.toNat < g.count.toNat := hq
    rw [hg.count_eq] at hq'
    exact hg.readable ht (hc q hq')
  · exact ⟨_, hself, HeaderPage.ofPage_toPage (hp hh)⟩
  · funext q
    unfold node?
    by_cases hq : q = .header
    · rw [hq]
      rfl
    · show (if q.isHeader then _ else (PageFile.page? g q).bind _) = _
      rw [hg.page?_of_ne ht hq (.inr (by simp [PageId.header]))]

/-- A page has been added, behind the last one. All pages can be read then, and if they could before
the file shows the same nodes. -/
structure Grown (t : Tree) (p : PageId) (t' : Tree) : Prop where
  number_eq : p.number = t.pageCount
  pageCount_eq : t'.pageCount.toNat = t.pageCount.toNat + 1
  complete : t'.Complete
  held : 0 < t.pageCount.toNat → t'.Held p
  node?_eq : t.Complete → t'.node? = t.node?

/-- Where a page has been added, nothing has been lost. -/
theorem leads_extended (ht : t.Paged) (h : PageFile.Extended t.store.index g) :
    t.Leads { t with store := { t.store with index := g } } := by
  have hheader : t.Headed → PageFile.page? g .header = t.headerPage? := by
    rintro ⟨page', hpage', -⟩
    exact h.page?_of_readable ht ⟨page', hpage'⟩
  refine ⟨h.paged ht, rfl, fun hq => ?_, fun _ q => h.readable_of_lt ht, fun hh => ?_,
    fun hh => .inl (hheader hh)⟩
  · obtain ⟨page', hpage'⟩ := hq
    exact ⟨page', (h.page?_of_readable ht ⟨page', hpage'⟩).trans hpage'⟩
  · have ⟨page', hpage', hof⟩ := hh
    exact ⟨page', (hheader hh).trans hpage', hof⟩

/-- The nodes that are shown when a page has been added. The new page shows none. -/
theorem node?_extended (ht : t.Paged) (h : PageFile.Extended t.store.index g)
    (hp : p.number = t.pageCount) (hc : t.Complete) :
    node? { t with store := { t.store with index := g } } = t.node? := by
  funext q
  by_cases hq : q.number.toNat < t.store.index.count.toNat
  · unfold node?
    show (if q.isHeader then _ else (PageFile.page? g q).bind _) = _
    rw [h.page?_of_readable ht (hc q hq)]
  · -- no page is shown where none has been before
    have hold : t.node? q = none := by
      rw [Option.eq_none_iff_forall_ne_some]
      intro n hn
      exact hq ((held_of_node? hn).2.lt_count ht)
    rw [hold]
    by_cases hqp : q = p
    · unfold node?
      rw [hqp, show PageFile.page? g p = _ from h.page?_new ht (congrArg UInt64.toNat hp)]
      simp [ofPage_zero]
    · rw [Option.eq_none_iff_forall_ne_some]
      intro n hn
      have hlt : q.number.toNat < g.count.toNat := (held_of_node? hn).2.lt_count (h.paged ht)
      rw [h.count_eq] at hlt
      refine hqp (congrArg PageId.mk (UInt64.toNat_inj.1 ?_))
      rw [hp]
      exact Nat.le_antisymm (Nat.le_of_lt_succ hlt) (Nat.le_of_not_lt hq)

theorem safe_newPage (ht : t.Paged) : Safe newPage t fun p t' => t.Grown p t' := by
  refine Concludes.mono (concludes_onIndex (PageFile.concludes_grow ht)) ?_ ?_
  · rintro p t' ⟨g, ⟨hp, hg⟩, rfl⟩
    refine ⟨leads_extended ht hg, hp, hg.count_eq, fun q => hg.readable_of_lt ht,
      fun hpos => ⟨?_, _, hg.page?_new ht (congrArg UInt64.toNat hp)⟩, node?_extended ht hg hp⟩
    rintro rfl
    rw [pageCount, ← hp] at hpos
    exact absurd hpos (by decide)
  · rintro e t' ⟨_, ⟨rfl, he⟩, rfl⟩
    exact ⟨.refl ht, he⟩

end Write

end Tree
end RecordIndex
