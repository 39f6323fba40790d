import RecordIndex.Proofs.Damage.Links

/-!
# Inserting into a damaged tree

An insertion goes up along the parent links that the nodes hold, and these may lead anywhere, also
round in a circle. What bounds it is that each split but the last takes a node with all the children
that it may have (`Tree.Full`) and leaves two that have fewer; no other node gains a child. So the
walk takes each page at most once.

* `Tree.Spent`: the pages whose nodes have been split.
* `Tree.safe_splitInternalPage`: a split takes one full node and makes none.
* `Tree.safe_attachSplit`: the walk upwards, with as many steps as there are pages left.
* `Tree.safe_addRecord`: the insertion of a record.
-/

namespace RecordIndex.Tree

open RecordIndex.Action

variable {t t' : Tree} {p q : PageId}

/-- The page shows a node with as many children as there may be. -/
def Full (t : Tree) (p : PageId) : Prop :=
  ∃ children, t.kids p = some children ∧ children.length = maxChildren

theorem SameLinks.full (h : t.SameLinks t') (hq : t'.Full q) : t.Full q := by
  rwa [Full, h.kids_eq] at hq

/-- A node with another number of children is not full, and the others are what they were. -/
theorem NodeSet.full {m : Internal} (h : t.NodeSet p (some (.internal m)) t')
    (hm : m.children.length ≠ maxChildren) (hq : t'.Full q) : q ≠ p ∧ t.Full q := by
  obtain ⟨children, hkids, hlen⟩ := hq
  rw [h.kids_eq] at hkids
  by_cases hqp : q = p
  · rw [hqp, Function.update_self] at hkids
    cases hkids
    exact absurd hlen hm
  · rw [Function.update_of_ne hqp] at hkids
    exact ⟨hqp, children, hkids, hlen⟩

/-- Pages whose nodes have been split, and are not full any more. All full nodes are on the first
`n` pages. -/
structure Spent (t : Tree) (n : Nat) (done : List PageId) : Prop where
  nodup : done.Nodup
  not_full : ∀ p ∈ done, ¬ t.Full p
  below : ∀ p ∈ done, p ≠ .header ∧ p.number.toNat < n
  full_below : ∀ {p}, t.Full p → p.number.toNat < n
  pos : 0 < n

theorem Spent.length_lt {n : Nat} {done : List PageId} (h : t.Spent n done) : done.length < n :=
  length_lt_of_nodup h.nodup h.below h.pos

/-- One more node has been split. -/
theorem Spent.cons {n : Nat} {done : List PageId} (h : t.Spent n done) (hp : t.Full p)
    (hfull : ∀ {q}, t'.Full q → q ≠ p ∧ t.Full q) : t'.Spent n (p :: done) where
  nodup := List.nodup_cons.2 ⟨fun hmem => h.not_full p hmem hp, h.nodup⟩
  not_full := List.forall_mem_cons.2
    ⟨fun hp' => (hfull hp').1 rfl, fun q hq hq' => h.not_full q hq (hfull hq').2⟩
  below := by
    have ⟨children, hkids, _⟩ := hp
    obtain ⟨n, hn, -⟩ := node?_of_kids hkids
    exact List.forall_mem_cons.2 ⟨⟨(held_of_node? hn).1, h.full_below hp⟩, h.below⟩
  full_below hq := h.full_below (hfull hq).2
  pos := h.pos

/-! ### Splits -/

section

variable (ht : t.Paged)
include ht

theorem Held.pageCount_pos (hp : t.Held p) : 0 < t.pageCount.toNat :=
  Nat.lt_of_le_of_lt (Nat.zero_le _) (hp.2.lt_count ht)

/-- A leaf is split. All pages can be read then, and the new one shows a leaf. -/
theorem safe_splitLeafPage {l : Leaf} (hl : l.Sound) (hsize : Leaf.splitPosition < l.keys.length)
    (hp : t.Held l.page) :
    Safe (splitLeafPage l) t fun s t' => s.separator.Fits ∧ t'.Held s.left ∧ t'.Complete ∧
      t'.Spent t.pageCount.toNat [] := by
  have hpos := hp.pageCount_pos ht
  refine (safe_newPage ht).bind fun new t₁ ht₁ hgrown => ?_
  obtain ⟨⟨left, separator, right⟩, hsplit, hleft, ⟨hright, hnew⟩, hfits⟩ := hl.split hsize new
  rw [hsplit, ofChecked_ok, pure_bind]
  refine (safe_putLeaf ht₁.paged hleft.sound.fits (hleft.page_eq ▸ ht₁.held hp)).bind fun _ t₂ ht₂ hset => ?_
  have hheld : t₂.Held right.page := hnew ▸ ht₂.held (hgrown.held hpos)
  refine (safe_putLeaf ht₂.paged hright.fits hheld).bind fun _ t₃ ht₃ hset' => ?_
  have hall := (ht₁.trans ht₂).trans ht₃
  refine safe_pure ht₃.paged ⟨hfits, hall.held hp, ht₃.complete (ht₂.complete hgrown.complete),
    .nil, by simp, by simp, fun {q} hq => ?_, hpos⟩
  obtain ⟨children, hkids, -⟩ := hq
  have hne : q ≠ new := by
    rintro rfl
    rw [hset'.kids_eq, ← hnew, Function.update_self] at hkids
    cases hkids
  obtain ⟨n, hn, -⟩ := node?_of_kids hkids
  have hlt := (held_of_node? hn).2.lt_count ht₃.paged
  have hcount : t₃.pageCount.toNat = t.pageCount.toNat + 1 := by
    rw [hset'.pageCount_eq, hset.pageCount_eq, hgrown.pageCount_eq]
  have hnumber : q.number.toNat ≠ t.pageCount.toNat := fun he =>
    hne (congrArg PageId.mk (UInt64.toNat_inj.1 (he.trans (congrArg _ hgrown.number_eq).symm)))
  change q.number.toNat < t₃.pageCount.toNat at hlt
  omega

/-- A node with one child too many is split, and neither half is full. -/
theorem safe_splitInternalPage (hcomplete : t.Complete) {n : Internal} (hn : n.Sound)
    (hsize : n.children.length = maxChildren + 1) (hp : t.Held n.page) :
    Safe (splitInternalPage n) t fun s t' => s.separator.Fits ∧ t'.Held s.left ∧
      ∀ {q}, t'.Full q → q ≠ n.page ∧ t.Full q := by
  refine (safe_newPage ht).bind fun new t₁ ht₁ hgrown => ?_
  have hkeys : Internal.splitPosition ≤ n.keys.length := by
    have := hn.counts
    simp only [Internal.splitPosition, fanout, maxChildren] at *
    omega
  obtain ⟨⟨left, separator, right⟩, hsplit, ⟨hleft, hlen⟩, ⟨hright, hnew, hlen'⟩, hfits⟩ :=
    hn.split hkeys new
  rw [hsplit, ofResult_ok, pure_bind]
  refine (safe_putInternal ht₁.paged hleft.sound.fits (hleft.page_eq ▸ ht₁.held hp)).bind
    fun _ t₂ ht₂ hset => ?_
  have hheld : t₂.Held right.page := hnew ▸ ht₂.held (hgrown.held (hp.pageCount_pos ht))
  refine (safe_putInternal ht₂.paged hright.fits hheld).bind fun _ t₃ ht₃ hset' => ?_
  refine (safe_relinkAll ht₃.paged _ _).bind fun _ t₄ ht₄ hlinks => ?_
  have hall := ((ht₁.trans ht₂).trans ht₃).trans ht₄
  refine safe_pure ht₄.paged ⟨hfits, hall.held hp, fun hq => ?_⟩
  rw [hsize] at hlen'
  have hnotLeft : left.children.length ≠ maxChildren := by
    rw [hlen]
    decide
  have hnotRight : right.children.length ≠ maxChildren := by
    simp only [Internal.splitPosition, fanout, maxChildren] at *
    omega
  obtain ⟨-, hq⟩ := hset'.full hnotRight (hlinks.full hq)
  obtain ⟨hne, children, hkids, hmax⟩ := hset.full hnotLeft hq
  refine ⟨hleft.page_eq ▸ hne, children, ?_, hmax⟩
  rwa [kids, hgrown.node?_eq hcomplete] at hkids

/-! ### The walk upwards -/

variable {s : Split} (hs : s.separator.Fits)
include hs

theorem safe_addRoot (hp : t.Held s.left) : Safe (addRoot s) t fun _ _ => True := by
  refine (safe_newPage ht).bind fun root t₁ ht₁ hgrown => ?_
  have hroot : t₁.Held root := hgrown.held (hp.pageCount_pos ht)
  refine safe_get_bind ?_
  refine (safe_putInternal ht₁.paged
    (Internal.Sound.rootAbove root t₁.keyType s.left s.right hs).fits hroot).bind
    fun _ t₂ ht₂ _ => ?_
  refine (safe_relink ht₂.paged _ _).bind fun _ t₃ ht₃ _ => ?_
  refine (safe_relink ht₃.paged _ _).bind fun _ t₄ ht₄ _ => ?_
  exact (safe_moveRoot ht₄.paged fun _ => hroot.1).mono fun _ _ _ _ => trivial

theorem safe_addRightHalf {parent : Internal} (hparent : parent.Sound) :
    Safe (addRightHalf parent s) t fun n t' => t' = t ∧ n.Revises parent ∧
      n.children.length = parent.children.length + 1 := by
  unfold addRightHalf
  dsimp only
  split_ifs with hslot
  · have hlt := (List.getElem?_eq_some_iff.1 hslot).1
    exact safe_ofChecked ht (hparent.insertChild hlt hs s.right)
  · exact safe_fail ht _

/-- The parents are found by the links of their children, whatever these are. Each that has to be
split has been full, and is so no more. -/
theorem safe_attachSplit (hcomplete : t.Complete) (hp : t.Held s.left) {n steps : Nat}
    {done : List PageId} (hdone : t.Spent n done) (hsteps : n ≤ steps + done.length) :
    Safe (attachSplit steps s) t fun _ _ => True := by
  induction steps generalizing t s done with
  | zero =>
    have := hdone.length_lt
    omega
  | succ steps ih =>
    rw [attachSplit]
    cases s.parent with
    | none => exact safe_addRoot ht hs hp
    | some p =>
      refine (safe_fetchInternal ht p).bind ?_
      rintro parent t₁ ht₁ ⟨hsame, hnode⟩
      have henc := t.valid_view.encodable hnode
      have hpage : parent.page = p := t.valid_view.page_eq hnode
      refine (safe_addRightHalf ht₁.paged hs henc.internal_sound).bind ?_
      rintro m t₁ - ⟨rfl, hm, hlen⟩
      have hmpage : m.page = p := hm.page_eq.trans hpage
      have hheld : t₁.Held m.page := hmpage ▸ ht₁.held (held_of_node? hnode)
      split_ifs with hsize
      · exact (safe_putInternal ht₁.paged hm.sound.fits hheld).mono fun _ _ _ _ => trivial
      · -- the parent had as many children as there may be
        have hmax : parent.children.length = maxChildren := by
          have hcounts : parent.children.length = parent.keys.length + 1 := henc.counts
          have hle : parent.keys.length ≤ fanout := henc.size_le
          have hlarge : ¬ m.children.length ≤ maxChildren := hsize
          unfold maxChildren at *
          omega
        have hfull : t.Full m.page := hmpage ▸ ⟨_, kids_of_internal hnode, hmax⟩
        refine (safe_splitInternalPage ht₁.paged (ht₁.complete hcomplete) hm.sound
          (hlen.trans (congrArg _ hmax)) hheld).bind ?_
        rintro s' t₂ ht₂ ⟨hs', hp', hrest⟩
        have hdone' : t₂.Spent n (m.page :: done) := hdone.cons hfull fun hq =>
          ⟨(hrest hq).1, hsame.sameLinks.full (hrest hq).2⟩
        refine ih ht₂.paged hs' (ht₂.complete (ht₁.complete hcomplete)) hp' hdone' ?_
        rw [List.length_cons]
        omega

end

/-- A record that has an encoded form is inserted, or the insertion fails with an error. Neither way
needs more rounds than there are pages. -/
theorem safe_addRecordWithin (ht : t.Paged) (hacyclic : t.Acyclic) {limit : Nat}
    (hpos : 0 < limit) (hlimit : t.pageCount.toNat ≤ limit) {r : Record}
    (hr : r.validate = .ok ()) : Safe (addRecordWithin limit r) t fun _ _ => True := by
  refine (safe_findLeafWithin ht hacyclic (shownBelow_of_le hpos hlimit) r.key).bind
    fun leaf t₁ ht₁ ⟨hsame, hnode⟩ => ?_
  have hheld := ht₁.held (held_of_node? hnode)
  split_ifs
  · exact safe_fail ht₁.paged _
  · refine (safe_onRecords ht₁.paged (RecordFile.faultless_add hr)).bind
      fun id t₂ ht₂ hindex => ?_
    have hsound := leaf_sound hnode
    refine (safe_ofChecked ht₂.paged (hsound.insertEntry (Keys.firstLarger_le_length r.key _)
      (Record.key_fits hr) id)).bind ?_
    rintro l t₂ - ⟨rfl, hl⟩
    have hheld' : t₂.Held l.page := hl.page_eq ▸ ht₂.held hheld
    split_ifs with hsize
    · exact (safe_putLeaf ht₂.paged hl.sound.fits hheld').mono fun _ _ _ _ => trivial
    · have hlarge : Leaf.splitPosition < l.keys.length :=
        Nat.lt_trans (by decide) (Nat.not_le.1 hsize)
      refine (safe_splitLeafPage ht₂.paged hl.sound hlarge hheld').bind
        fun s t₃ ht₃ ⟨hs, hp, hcomplete, hspent⟩ => ?_
      rw [(hsame.trans (sameNodes_of_index_eq hindex)).pageCount_eq] at hspent
      exact safe_attachSplit ht₃.paged hs hcomplete hp hspent hlimit

theorem safe_addRecord (ht : t.Paged) (hacyclic : t.Acyclic) {r : Record}
    (hr : r.validate = .ok ()) : Safe (addRecord r) t fun _ _ => True := by
  rw [Safe, Concludes, addRecord_eq]
  exact safe_addRecordWithin ht hacyclic (Nat.succ_pos _) (Nat.le_succ _) hr

end RecordIndex.Tree
