import RecordIndex.Proofs.Damage.Links

/-!
# Deleting from a damaged tree

A deletion goes up along parent links too, and while it does the child lists that it goes by are being
rewritten. A parent is only accepted if it lists the node that it was found from. So the walk goes
against the child links: those that were there when it began, since the lists that have been written on
the way are those of nodes below the one that the walk has come to (`Tree.Mending`). These links lead
round in no circle, and the walk meets no page twice.

* `Tree.safe_mergeLeafPages`, `Tree.safe_takeFromRightLeaf` and so on: each remedy is harmless.
* `Tree.Mending`: what is known at each level, and `Tree.Mending.up`: one level further.
* `Tree.safe_mendInternal`: the walk upwards, with as many steps as there are pages left.
* `Tree.safe_removeKey`: the deletion of a key.
-/

namespace RecordIndex.Tree

open RecordIndex.Action Relation

variable {t t₀ t' : Tree} {p : PageId}

/-! ### Remedies -/

section Remedies

variable (ht : t.Paged) {parent : Internal} (hparent : parent.Sound)
include ht hparent

theorem safe_separatorIndex (left right : PageId) :
    Safe (ofExcept (parent.separatorIndex left right)) t fun slot t' => t' = t ∧
      left ∈ parent.children ∧ right ∈ parent.children ∧ slot < parent.keys.length := by
  refine safe_ofExcept ht fun slot h => ?_
  obtain ⟨-, hl, hr, hlt⟩ := Internal.separatorIndex_eq_ok h
  have := hparent.counts
  exact ⟨rfl, hl, hr, by omega⟩

section Leaves

variable {left right : Leaf} (hl : left.Sound) (hr : right.Sound)
  (hpl : t.Held left.page) (hpr : t.Held right.page)

include hl hr hpl hpr in
/-- The parent has lost a child. No node has another child than before. -/
theorem safe_mergeLeafPages : Safe (mergeLeafPages parent left right) t fun m t' =>
    m.Revises parent ∧ m.children ⊆ parent.children ∧
      ∀ {q children}, t'.kids q = some children → t.kids q = some children := by
  refine (safe_separatorIndex ht hparent left.page right.page).bind ?_
  rintro slot t - ⟨rfl, -, -, hslot⟩
  have hcounts := hparent.counts
  refine (safe_ofChecked ht (hparent.removeChild (by omega))).bind ?_
  rintro ⟨separator, m⟩ t - ⟨rfl, -, hm, hsub⟩
  refine (safe_putLeaf ht (hl.join hr).sound.fits hpl).bind fun _ t₁ ht₁ hset => ?_
  refine (safe_releasePage ht₁.paged (ht₁.held hpr)).bind fun _ t₂ ht₂ hset' => ?_
  refine safe_pure ht₂.paged ⟨hm, hsub, fun {q children} h => ?_⟩
  rw [hset'.kids_eq, hset.kids_eq] at h
  simp only [Function.update_apply] at h
  split_ifs at h with hq hq'
  · cases h
  · cases h
  · exact h

variable (hp : t.Held parent.page)

omit hparent in
include hpl hpr hp in
/-- Two leaves that have been edited are written, and then their parent. -/
theorem safe_putLeaves {l r : Leaf} {m : Internal} (hl : l.Revises left) (hr : r.Revises right)
    (hm : m.Revises parent) :
    Safe (do putLeaf l; putLeaf r; putInternal m) t fun _ _ => True := by
  refine (safe_putLeaf ht hl.sound.fits (hl.page_eq ▸ hpl)).bind fun _ t₁ ht₁ _ => ?_
  refine (safe_putLeaf ht₁.paged hr.sound.fits (hr.page_eq ▸ ht₁.held hpr)).bind fun _ t₂ ht₂ _ => ?_
  exact (safe_putInternal ht₂.paged hm.sound.fits (hm.page_eq ▸ (ht₁.trans ht₂).held hp)).mono
    fun _ _ _ _ => trivial

include hl hr hpl hpr hp

theorem safe_takeFromRightLeaf (hsize : 1 < right.keys.length) :
    Safe (takeFromRightLeaf parent left right) t fun _ _ => True := by
  refine (safe_separatorIndex ht hparent left.page right.page).bind ?_
  rintro slot t - ⟨rfl, -, -, hslot⟩
  refine (safe_ofChecked ht (hl.shiftLeft hr hsize)).bind ?_
  rintro ⟨l, r, separator⟩ t - ⟨rfl, hl', hr', hfits⟩
  refine (safe_ofChecked ht (hparent.setKey hslot hfits)).bind ?_
  rintro m t - ⟨rfl, hm⟩
  exact safe_putLeaves ht hpl hpr hp hl' hr' hm

theorem safe_takeFromLeftLeaf : Safe (takeFromLeftLeaf parent left right) t fun _ _ => True := by
  refine (safe_separatorIndex ht hparent left.page right.page).bind ?_
  rintro slot t - ⟨rfl, -, -, hslot⟩
  refine (safe_ofExcept ht (Q := fun a t' => t' = t ∧ left.shiftRight right = .ok a)
    fun _ h => ⟨rfl, h⟩).bind ?_
  rintro ⟨l, r, separator⟩ t - ⟨rfl, hshift⟩
  obtain ⟨hl', hr', hfits⟩ := hl.shiftRight hr hshift
  refine (safe_ofChecked ht (hparent.setKey hslot hfits)).bind ?_
  rintro m t - ⟨rfl, hm⟩
  exact safe_putLeaves ht hpl hpr hp hl' hr' hm

end Leaves

section Internals

variable {left right : Internal} (hl : left.Sound) (hr : right.Sound)
  (hpl : t.Held left.page) (hpr : t.Held right.page)

include hl hr hpl hpr in
/-- The parent has lost a child, and one node has the children of two. -/
theorem safe_mergeInternalPages : Safe (mergeInternalPages parent left right) t fun m t' =>
    m.Revises parent ∧ m.children ⊆ parent.children ∧
    (left.page ∈ parent.children ∧ right.page ∈ parent.children) ∧
    ∀ {q children}, t'.kids q = some children →
      children = left.children ++ right.children ∨ t.kids q = some children := by
  refine (safe_separatorIndex ht hparent left.page right.page).bind ?_
  rintro slot t - ⟨rfl, hleft, hright, hslot⟩
  have hcounts := hparent.counts
  refine (safe_ofChecked ht (hparent.removeChild (by omega))).bind ?_
  rintro ⟨separator, m⟩ t - ⟨rfl, hfits, hm, hsub⟩
  refine (safe_relinkAll ht _ _).bind fun _ t₁ ht₁ hlinks => ?_
  refine (safe_putInternal ht₁.paged (hl.join hr hfits).sound.fits (ht₁.held hpl)).bind
    fun _ t₂ ht₂ hset => ?_
  refine (safe_releasePage ht₂.paged (ht₂.held (ht₁.held hpr))).bind fun _ t₃ ht₃ hset' => ?_
  refine safe_pure ht₃.paged ⟨hm, hsub, ⟨hleft, hright⟩, fun {q children} h => ?_⟩
  rw [hset'.kids_eq, hset.kids_eq, hlinks.kids_eq] at h
  simp only [Function.update_apply] at h
  split_ifs at h with hq hq'
  · cases h
  · cases h
    exact .inl rfl
  · exact .inr h

variable (hp : t.Held parent.page)

omit hparent in
include hpl hpr hp in
/-- A child is linked to another parent, two nodes that have been edited are written, and then their
parent. -/
theorem safe_putInternals (child : PageId) (q : Option PageId) {l r m : Internal}
    (hl : l.Revises left) (hr : r.Revises right) (hm : m.Revises parent) :
    Safe (do relink child q; putInternal l; putInternal r; putInternal m) t fun _ _ => True := by
  refine (safe_relink ht child q).bind fun _ t₁ ht₁ _ => ?_
  refine (safe_putInternal ht₁.paged hl.sound.fits (hl.page_eq ▸ ht₁.held hpl)).bind
    fun _ t₂ ht₂ _ => ?_
  have hall := ht₁.trans ht₂
  refine (safe_putInternal ht₂.paged hr.sound.fits (hr.page_eq ▸ hall.held hpr)).bind
    fun _ t₃ ht₃ _ => ?_
  exact (safe_putInternal ht₃.paged hm.sound.fits (hm.page_eq ▸ (hall.trans ht₃).held hp)).mono
    fun _ _ _ _ => trivial

include hl hr hpl hpr hp

theorem safe_takeFromRightInternal (hsize : 1 < right.children.length) :
    Safe (takeFromRightInternal parent left right) t fun _ _ => True := by
  refine (safe_separatorIndex ht hparent left.page right.page).bind ?_
  rintro slot t - ⟨rfl, -, -, hslot⟩
  refine (safe_ofChecked ht (Positions.exists_get parent.keys hslot)).bind ?_
  rintro separator t - ⟨rfl, hmem⟩
  refine (safe_ofChecked ht (hl.shiftLeft hr (hparent.fits _ hmem) hsize)).bind ?_
  rintro ⟨child, l, r, separator'⟩ t - ⟨rfl, hl', hr', hfits⟩
  refine (safe_ofChecked ht (hparent.setKey hslot hfits)).bind ?_
  rintro m t - ⟨rfl, hm⟩
  exact safe_putInternals ht hpl hpr hp child _ hl' hr' hm

theorem safe_takeFromLeftInternal :
    Safe (takeFromLeftInternal parent left right) t fun _ _ => True := by
  refine (safe_separatorIndex ht hparent left.page right.page).bind ?_
  rintro slot t - ⟨rfl, -, -, hslot⟩
  refine (safe_ofChecked ht (Positions.exists_get parent.keys hslot)).bind ?_
  rintro separator t - ⟨rfl, hmem⟩
  refine (safe_ofExcept ht (Q := fun a t' => t' = t ∧ left.shiftRight separator right = .ok a)
    fun _ h => ⟨rfl, h⟩).bind ?_
  rintro ⟨child, l, r, separator'⟩ t - ⟨rfl, hshift⟩
  obtain ⟨hl', hr', hfits⟩ := hl.shiftRight hr (hparent.fits _ hmem) hshift
  refine (safe_ofChecked ht (hparent.setKey hslot hfits)).bind ?_
  rintro m t - ⟨rfl, hm⟩
  exact safe_putInternals ht hpl hpr hp child _ hl' hr' hm

end Internals

/-- A root that is left with one child gives way to it. The child is not the header page, or it could
not have been linked. -/
theorem safe_lowerRoot (hp : t.Held parent.page) : Safe (lowerRoot parent) t fun _ _ => True := by
  unfold lowerRoot
  split_ifs
  · exact (safe_putInternal ht hparent.fits hp).mono fun _ _ _ _ => trivial
  · have hcounts := hparent.counts
    refine (safe_ofChecked ht
      (Positions.exists_get parent.children (i := 0) (by omega))).bind ?_
    rintro child t - ⟨rfl, -⟩
    refine (safe_relink ht child none).bind fun _ t₁ ht₁ ⟨_, hne⟩ => ?_
    refine (safe_moveRoot ht₁.paged hne).bind fun _ t₂ ht₂ _ => ?_
    exact (safe_releasePage ht₂.paged (ht₂.held (ht₁.held hp))).mono fun _ _ _ _ => trivial

end Remedies

/-! ### Reading siblings -/

/-- The node is shown on the page that it names. -/
def Stored (t : Tree) (n : Node) : Prop := t.node? n.page = some n

theorem SameNodes.stored (h : t.SameNodes t') {n : Node} (hn : t.Stored n) : t'.Stored n := by
  rwa [Stored, h.node?_eq]

theorem safe_fetchLeaf_stored (ht : t.Paged) (p : PageId) :
    Safe (fetchLeaf p) t fun l t' => t.SameNodes t' ∧ t.Stored (.leaf l) := by
  refine (safe_fetchLeaf ht p).mono fun l t' _ ⟨hsame, hl⟩ => ⟨hsame, ?_⟩
  rwa [Stored, show (Node.leaf l).page = p from t.valid_view.page_eq hl]

theorem safe_fetchInternal_stored (ht : t.Paged) (p : PageId) :
    Safe (fetchInternal p) t fun n t' => t.SameNodes t' ∧ t.Stored (.internal n) := by
  refine (safe_fetchInternal ht p).mono fun n t' _ ⟨hsame, hn⟩ => ⟨hsame, ?_⟩
  rwa [Stored, show (Node.internal n).page = p from t.valid_view.page_eq hn]

section Family

variable {α β : Type} {readSibling : PageId → TreeAction α} {node : α → Node}
  {R : β → Tree → Prop}
  (hread : ∀ {t : Tree}, t.Paged → ∀ q,
    Safe (readSibling q) t fun a t' => t.SameNodes t' ∧ t.Stored (node a))
include hread

theorem safe_siblings (ht : t.Paged) (parent : Internal) (slot : Nat) :
    Safe (siblings readSibling parent slot) t fun a t' => t.SameNodes t' ∧
      (∀ l, a.1 = some l → t'.Stored (node l)) ∧ ∀ r, a.2 = some r → t'.Stored (node r) := by
  have hmap : ∀ (q? : Option PageId) {t : Tree}, t.Paged → Safe (q?.mapM readSibling) t
      fun a? t' => t.SameNodes t' ∧ ∀ a, a? = some a → t'.Stored (node a) := by
    intro q? t ht
    cases q? with
    | none => exact safe_pure ht ⟨⟨rfl, rfl⟩, nofun⟩
    | some q =>
      refine Safe.map ((hread ht q).mono ?_)
      rintro a t' - ⟨hsame, ha⟩
      exact ⟨hsame, fun _ h => Option.some.inj h ▸ hsame.stored ha⟩
  refine (hmap _ ht).bind fun r t₁ ht₁ ⟨hsame, hr⟩ => ?_
  refine (hmap _ ht₁.paged).bind fun l t₂ ht₂ ⟨hsame', hl⟩ => ?_
  exact safe_pure ht₂.paged ⟨hsame.trans hsame', hl, fun b hb => hsame'.stored (hr b hb)⟩

/-- The parent of a node is read, and then its siblings. The tree shows the same afterwards. -/
theorem safe_family (ht : t.Paged) (p child : PageId)
    {f : Internal → Option α × Option α → TreeAction β}
    (hf : ∀ parent a t', t.Leads t' → t.SameNodes t' → t'.node? p = some (.internal parent) →
      (∀ l, a.1 = some l → t'.Stored (node l)) → (∀ r, a.2 = some r → t'.Stored (node r)) →
      Safe (f parent a) t' R) :
    Safe (do
      let parent ← fetchInternal p
      let slot ← ofExcept (parent.indexOfChild child)
      let a ← siblings readSibling parent slot
      f parent a) t R := by
  refine (safe_fetchInternal ht p).bind fun parent t₁ ht₁ ⟨hsame, hparent⟩ => ?_
  refine (safe_ofExcept (Q := fun _ t' => t' = t₁) ht₁.paged fun _ _ => rfl).bind ?_
  rintro slot t₁ - rfl
  refine (safe_siblings hread ht₁.paged parent slot).bind
    fun a t₂ ht₂ ⟨hsame', hleft, hright⟩ => ?_
  have hsame₂ := hsame.trans hsame'
  have hparent' : t₂.node? p = some (.internal parent) := by rwa [hsame₂.node?_eq]
  exact (hf parent a t₂ (ht₁.trans ht₂) hsame₂ hparent' hleft hright).mono fun _ _ _ h => h

end Family

/-! ### The walk upwards -/

/-- What is known of the links when the walk has come to a node, which has lost a child in memory.
`t₀` is the tree that it began in, and `met` are the pages that it has come by. -/
structure Mending (t₀ t : Tree) (node : Internal) (met : List PageId) : Prop where
  /-- The children of the node are below it. -/
  below : ∀ c ∈ node.children, TransGen t₀.Lists node.page c
  /-- Each node has the children that it had, or only such as are below the node. -/
  kids : ∀ {q children}, t.kids q = some children →
    t₀.kids q = some children ∨ ∀ c ∈ children, TransGen t₀.Lists node.page c
  nodup : met.Nodup
  shown : ∀ q ∈ met, ∃ m, t₀.node? q = some m
  reach : ∀ q ∈ met, ReflTransGen t₀.Lists node.page q

namespace Mending

variable {node : Internal} {met : List PageId}

theorem length_lt (h : Mending t₀ t node met) {n : Nat} (hn : t₀.ShownBelow n) : met.length < n :=
  length_lt_of_shown hn h.nodup h.shown

/-- The tree shows the same. -/
theorem congr (h : Mending t₀ t node met) (hsame : t.SameNodes t') : Mending t₀ t' node met :=
  ⟨h.below, fun hkids => h.kids (by rwa [hsame.sameLinks.kids_eq] at hkids), h.nodup, h.shown,
    h.reach⟩

/-- The first node that has lost a child. -/
theorem start {parent : Internal} (hparent : t.node? p = some (.internal parent))
    (hpage : node.page = p) (hsub : node.children ⊆ parent.children)
    (hkids : ∀ {q children}, t'.kids q = some children → t.kids q = some children) :
    Mending t t' node [p] where
  below c hc := by
    rw [hpage]
    exact .single ⟨_, kids_of_internal hparent, hsub hc⟩
  kids h := .inl (hkids h)
  nodup := List.nodup_singleton p
  shown := by simpa using ⟨_, hparent⟩
  reach := by
    rw [List.forall_mem_singleton, hpage]

/-- A parent that lists the node has listed it from the beginning. So it is above the node, and the
walk comes to it for the first time. -/
theorem up (h : Mending t₀ t node met) (hacyclic : t₀.Acyclic) {parent sibling m : Internal}
    (hparent : t.node? p = some (.internal parent)) (hnode : node.page ∈ parent.children)
    (hsibling : t.Stored (.internal sibling))
    (hbeside : sibling.page ∈ parent.children) (hpage : m.page = p)
    (hsub : m.children ⊆ parent.children)
    (hkids : ∀ {q children}, t'.kids q = some children →
      children ⊆ node.children ++ sibling.children ∨ t.kids q = some children) :
    Mending t₀ t' m (p :: met) := by
  have hlisted : t₀.kids p = some parent.children := by
    refine (h.kids (kids_of_internal hparent)).resolve_right fun hbelow => ?_
    exact hacyclic _ (hbelow _ hnode)
  have hlists : ∀ {c}, c ∈ parent.children → t₀.Lists p c := fun hc => ⟨_, hlisted, hc⟩
  have hdown : ∀ {c}, TransGen t₀.Lists node.page c → TransGen t₀.Lists p c :=
    fun hc => .head (hlists hnode) hc
  have hchildren : ∀ c ∈ node.children ++ sibling.children, TransGen t₀.Lists p c := by
    refine List.forall_mem_append.2 ⟨fun c hc => hdown (h.below c hc), fun c hc => ?_⟩
    rcases h.kids (kids_of_internal hsibling) with hold | hbelow
    · exact .head (hlists hbeside) (.single ⟨_, hold, hc⟩)
    · exact hdown (hbelow c hc)
  obtain ⟨parent', hparent', -⟩ := node?_of_kids hlisted
  subst hpage
  refine ⟨fun c hc => .single (hlists (hsub hc)), fun {q children} hq => ?_,
    List.nodup_cons.2 ⟨fun hp => ?_, h.nodup⟩, List.forall_mem_cons.2 ⟨⟨_, hparent'⟩, h.shown⟩,
    List.forall_mem_cons.2 ⟨.refl, fun q hq => .head (hlists hnode) (h.reach q hq)⟩⟩
  · rcases hkids hq with hmerged | hsame
    · exact .inr fun c hc => hchildren c (hmerged hc)
    · exact (h.kids hsame).imp_right fun hbelow c hc => hdown (hbelow c hc)
  · exact hacyclic m.page (TransGen.head' (hlists hnode) (h.reach m.page hp))

/-- A node and a sibling are merged, in whichever order they stand. The parent lists both. -/
theorem safe_merge (h : Mending t₀ t node met) (hacyclic : t₀.Acyclic) (ht : t.Paged)
    (hnode : node.Sound) (hp : t.Held node.page) {parent sibling a b : Internal}
    (hparent : t.node? p = some (.internal parent))
    (hsibling : t.Stored (.internal sibling))
    (hab : a = node ∧ b = sibling ∨ a = sibling ∧ b = node) :
    Safe (mergeInternalPages parent a b) t fun m t' =>
      m.Sound ∧ t'.Held m.page ∧ Mending t₀ t' m (p :: met) := by
  have hparentSound : parent.Sound := internal_sound hparent
  have hpage : parent.page = p := t.valid_view.page_eq hparent
  have hsiblingSound : sibling.Sound := internal_sound hsibling
  have hboth : (a.Sound ∧ t.Held a.page) ∧ b.Sound ∧ t.Held b.page := by
    rcases hab with ⟨rfl, rfl⟩ | ⟨rfl, rfl⟩
    · exact ⟨⟨hnode, hp⟩, hsiblingSound, held_of_node? hsibling⟩
    · exact ⟨⟨hsiblingSound, held_of_node? hsibling⟩, hnode, hp⟩
  obtain ⟨⟨ha, hpa⟩, hb, hpb⟩ := hboth
  refine (safe_mergeInternalPages ht hparentSound ha hb hpa hpb).mono ?_
  rintro m t' ht' ⟨hm, hsub, hlists, hkids⟩
  have hmem : node.page ∈ parent.children ∧ sibling.page ∈ parent.children := by
    rcases hab with ⟨rfl, rfl⟩ | ⟨rfl, rfl⟩
    · exact hlists
    · exact hlists.symm
  have hchildren : a.children ++ b.children ⊆ node.children ++ sibling.children := by
    rcases hab with ⟨rfl, rfl⟩ | ⟨rfl, rfl⟩
    · exact List.Subset.refl _
    · exact List.perm_append_comm.subset
  have hmpage : m.page = p := hm.page_eq.trans hpage
  refine ⟨hm.sound, hmpage ▸ ht'.held (held_of_node? hparent),
    h.up hacyclic hparent hmem.1 hsibling hmem.2 hmpage hsub fun {q children} hq => ?_⟩
  refine (hkids hq).imp_left fun he => ?_
  rwa [he]

end Mending

/-- The parents are found by the links of the nodes, but each has to list the node that it is found
from. -/
theorem safe_mendInternal (hacyclic : t₀.Acyclic) {n : Nat} (hn : t₀.ShownBelow n) (ht : t.Paged)
    {node : Internal} (hnode : node.Sound) (hp : t.Held node.page) {met : List PageId}
    (h : Mending t₀ t node met) {steps : Nat} (hsteps : n ≤ steps + met.length) :
    Safe (mendInternal steps node) t fun _ _ => True := by
  induction steps generalizing t node met with
  | zero =>
    have := h.length_lt hn
    omega
  | succ steps ih =>
    rw [mendInternal]
    cases node.parent with
    | none => exact safe_lowerRoot ht hnode hp
    | some p =>
      dsimp only
      split_ifs
      · exact (safe_putInternal ht hnode.fits hp).mono fun _ _ _ _ => trivial
      refine safe_family safe_fetchInternal_stored ht p node.page ?_
      rintro parent ⟨left, right⟩ t₁ ht₁ hsame hparent hleft hright
      have hheld : t₁.Held node.page := ht₁.held hp
      have hsibling : ∀ {sibling : Internal}, t₁.Stored (.internal sibling) →
          sibling.Sound ∧ t₁.Held sibling.page := fun hs =>
        ⟨internal_sound hs, held_of_node? hs⟩
      have hparentSound : parent.Sound := internal_sound hparent
      have hheldParent : t₁.Held parent.page := by
        rw [show parent.page = p from t₁.valid_view.page_eq hparent]
        exact held_of_node? hparent
      have hmerge : ∀ {sibling a b : Internal}, t₁.Stored (.internal sibling) →
          a = node ∧ b = sibling ∨ a = sibling ∧ b = node →
          Safe (mergeInternalPages parent a b >>= mendInternal steps) t₁ fun _ _ => True := by
        intro sibling a b hs hab
        refine ((h.congr hsame).safe_merge hacyclic ht₁.paged hnode hheld hparent hs hab).bind ?_
        rintro m t₂ ht₂ ⟨hm, hpm, h'⟩
        refine ih ht₂.paged hm hpm h' ?_
        rw [List.length_cons]
        omega
      dsimp only at hleft hright ⊢
      cases hremedy : Remedy.choose Internal.size minChildren maxChildren node left right with
      | none => exact safe_fail ht₁.paged _
      | some remedy =>
        have hsuits := Remedy.suits_of_choose hremedy
        cases remedy with
        | mergeRight b => exact hmerge (hright b hsuits.1) (.inl ⟨rfl, rfl⟩)
        | mergeLeft a => exact hmerge (hleft a hsuits.1) (.inr ⟨rfl, rfl⟩)
        | borrowRight b =>
          have hb := hsibling (hright b hsuits.1)
          exact safe_takeFromRightInternal ht₁.paged hparentSound hnode hb.1 hheld hb.2 hheldParent
            (Nat.lt_trans (by decide) hsuits.2)
        | borrowLeft a =>
          have ha := hsibling (hleft a hsuits.1)
          exact safe_takeFromLeftInternal ht₁.paged hparentSound ha.1 hnode ha.2 hheld hheldParent

/-- A leaf with too few entries. -/
theorem safe_mendLeaf (hacyclic : t.Acyclic) {n : Nat} (hn : t.ShownBelow n) (ht : t.Paged)
    {leaf : Leaf} (hleaf : leaf.Sound) (hp : t.Held leaf.page) {steps : Nat}
    (hsteps : n ≤ steps + 1) (p : PageId) : Safe (mendLeaf steps p leaf) t fun _ _ => True := by
  refine safe_family safe_fetchLeaf_stored ht p leaf.page ?_
  rintro parent ⟨left, right⟩ t₁ ht₁ hsame hparent hleft hright
  have hheld : t₁.Held leaf.page := ht₁.held hp
  have hsibling : ∀ {sibling : Leaf}, t₁.Stored (.leaf sibling) →
      sibling.Sound ∧ t₁.Held sibling.page := fun hs =>
    ⟨leaf_sound hs, held_of_node? hs⟩
  have hparentSound : parent.Sound := internal_sound hparent
  have hpage : parent.page = p := t₁.valid_view.page_eq hparent
  have hheldParent : t₁.Held parent.page := hpage ▸ held_of_node? hparent
  -- a merge takes a child from the parent, and all other links stay
  have hmerge : ∀ {a b : Leaf}, a.Sound ∧ t₁.Held a.page → b.Sound ∧ t₁.Held b.page →
      Safe (mergeLeafPages parent a b >>= mendInternal steps) t₁ fun _ _ => True := by
    rintro a b ⟨ha, hpa⟩ ⟨hb, hpb⟩
    refine (safe_mergeLeafPages ht₁.paged hparentSound ha hb hpa hpb).bind ?_
    rintro m t₂ ht₂ ⟨hm, hsub, hkids⟩
    exact safe_mendInternal (hsame.sameLinks.acyclic hacyclic) (hsame.shownBelow hn) ht₂.paged
      hm.sound (hm.page_eq ▸ ht₂.held hheldParent)
      (.start hparent (hm.page_eq.trans hpage) hsub hkids) hsteps
  dsimp only at hleft hright ⊢
  cases hremedy : Remedy.choose Leaf.size minLeafKeys maxLeafKeys leaf left right with
  | none => exact safe_fail ht₁.paged _
  | some remedy =>
    have hsuits := Remedy.suits_of_choose hremedy
    cases remedy with
    | mergeRight b => exact hmerge ⟨hleaf, hheld⟩ (hsibling (hright b hsuits.1))
    | mergeLeft a => exact hmerge (hsibling (hleft a hsuits.1)) ⟨hleaf, hheld⟩
    | borrowRight b =>
      have hb := hsibling (hright b hsuits.1)
      exact safe_takeFromRightLeaf ht₁.paged hparentSound hleaf hb.1 hheld hb.2 hheldParent
        (Nat.lt_trans (by decide) hsuits.2)
    | borrowLeft a =>
      have ha := hsibling (hleft a hsuits.1)
      exact safe_takeFromLeftLeaf ht₁.paged hparentSound ha.1 hleaf ha.2 hheld hheldParent

/-- A key is deleted, or the deletion fails with an error. Neither way needs more rounds than there are
pages. -/
theorem safe_removeKeyWithin (ht : t.Paged) (hacyclic : t.Acyclic) {limit : Nat}
    (hlimit : t.ShownBelow limit) (key : Field) :
    Safe (removeKeyWithin limit key) t fun _ _ => True := by
  refine (safe_findLeafWithin ht hacyclic hlimit key).bind fun leaf t₁ ht₁ ⟨hsame, hnode⟩ => ?_
  cases hindex : Keys.indexOf? key leaf.keys with
  | none => exact safe_fail ht₁.paged _
  | some i =>
    have hsound := leaf_sound hnode
    refine (safe_ofChecked ht₁.paged
      (hsound.removeEntry (Keys.lt_length_of_indexOf? hindex))).bind ?_
    rintro ⟨id, l⟩ t₁ - ⟨rfl, hl⟩
    refine (safe_onRecords ht₁.paged (RecordFile.faultless_erase id)).bind fun _ t₂ ht₂ hindex => ?_
    have hsame₂ := hsame.trans (sameNodes_of_index_eq hindex)
    have hheld : t₂.Held l.page := hl.page_eq ▸ (ht₁.trans ht₂).held (held_of_node? hnode)
    have hput : Safe (putLeaf l) t₂ fun _ _ => True :=
      (safe_putLeaf ht₂.paged hl.sound.fits hheld).mono fun _ _ _ _ => trivial
    cases l.parent with
    | none => exact hput
    | some p =>
      dsimp only
      split_ifs
      · exact hput
      · exact safe_mendLeaf (hsame₂.sameLinks.acyclic hacyclic) (hsame₂.shownBelow hlimit)
          ht₂.paged hl.sound hheld (Nat.le_succ _) p

theorem safe_removeKey (ht : t.Paged) (hacyclic : t.Acyclic) (key : Field) :
    Safe (removeKey key) t fun _ _ => True := by
  rw [Safe, Concludes, removeKey_eq]
  exact safe_removeKeyWithin ht hacyclic t.shownBelow_stepLimit key

end RecordIndex.Tree
