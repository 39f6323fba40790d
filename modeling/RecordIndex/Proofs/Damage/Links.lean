import Mathlib.Logic.Relation
import RecordIndex.Proofs.Damage.Nodes
import RecordIndex.Proofs.Damage.Rounds
import RecordIndex.Proofs.Damage.Safe
import RecordIndex.Proofs.WellFormed

/-!
# Child links

On a damaged file the child links of the nodes need not form a tree: a page may be listed several
times, or by no parent at all. What the walks rely on is that the links lead round in no circle
(`Tree.Acyclic`), so that a way along them meets no page twice and is shorter than the file has pages
(`Tree.length_lt_of_shown`).

* `Tree.kids` is what the file shows of the links: the children of the node on a page.
* `Tree.SameLinks`: relinking a node to another parent changes none of them.
* `Tree.safe_descend`: a descent ends at a leaf or with an error.
-/

namespace RecordIndex

open RecordIndex.Action

/-- The children of an internal node. -/
def Node.children? : Node → Option (List PageId)
  | .leaf _ => none
  | .internal n => some n.children

@[simp] theorem Node.children?_withParent (n : Node) (parent : Option PageId) :
    (n.withParent parent).children? = n.children? := by
  cases n <;> rfl

namespace Tree

variable {t t' t'' : Tree} {p q : PageId}

theorem leaf_sound {l : Leaf} (h : t.node? p = some (.leaf l)) : l.Sound :=
  (t.valid_view.encodable h).leaf_sound

theorem internal_sound {n : Internal} (h : t.node? p = some (.internal n)) : n.Sound :=
  (t.valid_view.encodable h).internal_sound

/-- The children of the node on a page, if it shows an internal node. -/
def kids (t : Tree) (p : PageId) : Option (List PageId) := (t.node? p).bind Node.children?

/-- The node on the first page lists the second one as a child. -/
def Lists (t : Tree) (p q : PageId) : Prop := ∃ children, t.kids p = some children ∧ q ∈ children

/-- No way along the child links leads back to where it started. -/
def Acyclic (t : Tree) : Prop := ∀ p, ¬ Relation.TransGen t.Lists p p

/-- The file shows the same child links, and the handle knows of as many pages. -/
structure SameLinks (t t' : Tree) : Prop where
  kids_eq : t'.kids = t.kids
  pageCount_eq : t'.pageCount = t.pageCount

theorem kids_of_internal {n : Internal} (h : t.node? p = some (.internal n)) :
    t.kids p = some n.children := by
  rw [kids, h]
  rfl

theorem node?_of_kids {children : List PageId} (h : t.kids p = some children) :
    ∃ n : Internal, t.node? p = some (.internal n) ∧ n.children = children := by
  obtain ⟨n, hn, hc⟩ := Option.bind_eq_some_iff.1 h
  cases n with
  | leaf l => cases hc
  | internal n => exact ⟨n, hn, Option.some.inj hc⟩

theorem SameLinks.refl (t : Tree) : t.SameLinks t := ⟨rfl, rfl⟩

theorem SameLinks.trans (h : t.SameLinks t') (h' : t'.SameLinks t'') : t.SameLinks t'' :=
  ⟨h'.kids_eq.trans h.kids_eq, h'.pageCount_eq.trans h.pageCount_eq⟩

theorem SameNodes.sameLinks (h : t.SameNodes t') : t.SameLinks t' where
  kids_eq := by
    funext q
    rw [kids, h.node?_eq, kids]
  pageCount_eq := h.pageCount_eq

theorem NodeSet.kids_eq {n? : Option Node} (h : t.NodeSet p n? t') :
    t'.kids = Function.update t.kids p (n?.bind Node.children?) := by
  funext q
  rw [kids, h.node?_eq]
  by_cases hq : q = p
  · rw [hq, Function.update_self, Function.update_self]
  · rw [Function.update_of_ne hq, Function.update_of_ne hq, kids]

/-- The child links are those of another tree that shows the same. -/
theorem SameLinks.lists_eq (h : t.SameLinks t') : t'.Lists = t.Lists := by
  funext p q
  rw [Lists, h.kids_eq, Lists]

theorem SameLinks.acyclic (h : t.SameLinks t') (hacyclic : t.Acyclic) : t'.Acyclic := by
  rw [Acyclic, h.lists_eq]
  exact hacyclic

theorem safe_relink_links (ht : t.Paged) (p : PageId) (parent : Option PageId) :
    Safe (relink p parent) t fun _ t' => t.SameLinks t' ∧ (t'.Headed → p ≠ .header) := by
  refine (safe_relink ht p parent).mono fun _ t' _ ⟨hset, hne⟩ => ⟨⟨?_, hset.pageCount_eq⟩, hne⟩
  have hp : ((t.node? p).map (Node.withParent parent)).bind Node.children? = t.kids p := by
    rw [kids]
    cases t.node? p with
    | none => rfl
    | some n => exact Node.children?_withParent n parent
  rw [hset.kids_eq, hp, Function.update_eq_self]

theorem safe_relinkAll (ht : t.Paged) (ps : List PageId) (parent : Option PageId) :
    Safe (relinkAll ps parent) t fun _ t' => t.SameLinks t' := by
  unfold relinkAll
  rw [List.forM_eq_forM]
  induction ps generalizing t with
  | nil => exact safe_pure ht (.refl t)
  | cons p ps ih =>
    rw [List.forM_cons]
    refine (safe_relink_links ht p parent).bind fun _ t₁ ht₁ ⟨hsame, _⟩ => ?_
    exact (ih ht₁.paged).mono fun _ t₂ _ hsame' => hsame.trans hsame'

/-! ### Ways along the links -/

/-- Every node that the file shows is on one of the first `n` pages. -/
def ShownBelow (t : Tree) (n : Nat) : Prop :=
  0 < n ∧ ∀ {p m}, t.node? p = some m → p.number.toNat < n

theorem shownBelow_of_le {n : Nat} (hpos : 0 < n) (h : t.pageCount.toNat ≤ n) : t.ShownBelow n :=
  ⟨hpos, fun hm => Nat.lt_of_lt_of_le (t.valid_view.hasPage hm).2 h⟩

theorem shownBelow_stepLimit (t : Tree) : t.ShownBelow t.stepLimit :=
  shownBelow_of_le (Nat.succ_pos _) (Nat.le_succ _)

theorem SameNodes.shownBelow {n : Nat} (h : t.SameNodes t') (hn : t.ShownBelow n) :
    t'.ShownBelow n :=
  ⟨hn.1, fun hm => hn.2 (by rwa [h.node?_eq] at hm)⟩

/-- There are fewer pages with nodes than pages. -/
theorem length_lt_of_shown {n : Nat} (hn : t.ShownBelow n) {ps : List PageId} (hps : ps.Nodup)
    (hshown : ∀ p ∈ ps, ∃ m, t.node? p = some m) : ps.length < n := by
  refine length_lt_of_nodup hps (fun p hp => ?_) hn.1
  obtain ⟨m, hm⟩ := hshown p hp
  exact ⟨(held_of_node? hm).1, hn.2 hm⟩

/-- Pages that have been met on the way to a page: distinct, with nodes on them, and each above it. -/
structure Way (t : Tree) (met : List PageId) (p : PageId) : Prop where
  nodup : met.Nodup
  shown : ∀ q ∈ met, ∃ m, t.node? q = some m
  above : ∀ q ∈ met, Relation.TransGen t.Lists q p

theorem Way.nil (t : Tree) (p : PageId) : t.Way [] p := ⟨.nil, by simp, by simp⟩

/-- One step further down. -/
theorem Way.step {met : List PageId} (h : t.Way met p) (ht : t.Acyclic) {n : Internal}
    (hn : t.node? p = some (.internal n)) (hq : q ∈ n.children) : t.Way (p :: met) q where
  nodup := List.nodup_cons.2 ⟨fun hp => ht p (h.above p hp), h.nodup⟩
  shown := List.forall_mem_cons.2 ⟨⟨_, hn⟩, h.shown⟩
  above := by
    have hlists : t.Lists p q := ⟨_, kids_of_internal hn, hq⟩
    exact List.forall_mem_cons.2 ⟨.single hlists, fun r hr => (h.above r hr).tail hlists⟩

/-- The ways of a tree that shows the same. -/
theorem Way.congr {met : List PageId} (h : t.Way met p) (hsame : t.SameNodes t') :
    t'.Way met p := by
  refine ⟨h.nodup, fun q hq => ?_, fun q hq => ?_⟩
  · rw [hsame.node?_eq]
    exact h.shown q hq
  · rw [hsame.sameLinks.lists_eq]
    exact h.above q hq

/-! ### Descents -/

/-- A descent along child links that lead round in no circle ends at a leaf or with an error, if
the positions that it takes are in range. There are as many steps as pages that may still be met. -/
theorem safe_descend (next : Internal → Nat) {n : Nat} (hn : t.ShownBelow n) (ht : t.Paged)
    (hacyclic : t.Acyclic)
    (hnext : ∀ q m, t.node? q = some (.internal m) → next m < m.children.length)
    {steps : Nat} {met : List PageId} (hway : t.Way met p) (hsteps : n ≤ steps + met.length) :
    Safe (descend next steps p) t fun a t' =>
      t.SameNodes t' ∧ ∃ q, t.node? q = some (.leaf a.1) := by
  induction steps generalizing t p met with
  | zero =>
    have := length_lt_of_shown hn hway.nodup hway.shown
    omega
  | succ steps ih =>
    rw [descend]
    refine (safe_fetchNode ht p).bind fun node t₁ ht₁ ⟨hsame, hnode⟩ => ?_
    cases node with
    | leaf l => exact safe_pure ht₁.paged ⟨hsame, p, hnode⟩
    | internal m =>
      have hget : ∃ child, Positions.get m.children (next m) = .ok child ∧ child ∈ m.children :=
        ⟨_, Positions.get_eq_ok_iff.2 (List.getElem?_eq_getElem (hnext p m hnode)),
          List.getElem_mem _⟩
      refine (safe_ofChecked ht₁.paged hget).bind ?_
      rintro child _ - ⟨rfl, hchild⟩
      have hrest := ih (hsame.shownBelow hn) ht₁.paged (hsame.sameLinks.acyclic hacyclic)
        (fun q m' hm' => hnext q m' (by rwa [hsame.node?_eq] at hm'))
        ((hway.step hacyclic hnode hchild).congr hsame) (by rw [List.length_cons]; omega)
      refine hrest.bind fun a t₂ ht₂ ⟨hsame', q, hq⟩ => safe_pure ht₂.paged ⟨hsame.trans hsame', q, ?_⟩
      rwa [hsame.node?_eq] at hq

section

variable (ht : t.Paged) (hacyclic : t.Acyclic)
include ht hacyclic

theorem safe_descendFromRootWithin {limit : Nat} (hlimit : t.ShownBelow limit)
    (next : Internal → Nat)
    (hnext : ∀ q m, t.node? q = some (.internal m) → next m < m.children.length) :
    Safe (descendFromRootWithin limit next) t fun a t' =>
      t.SameNodes t' ∧ ∃ q, t.node? q = some (.leaf a.1) :=
  safe_get_bind (safe_descend next hlimit ht hacyclic hnext (.nil t t.root) (Nat.le_add_right _ _))

/-- The search for the leaf of a key. -/
theorem safe_findLeafWithin {limit : Nat} (hlimit : t.ShownBelow limit) (key : Field) :
    Safe (findLeafWithin limit key) t fun l t' =>
      t.SameNodes t' ∧ t.node? l.page = some (.leaf l) := by
  have hnext : ∀ q m, t.node? q = some (.internal m) →
      Keys.firstLarger key m.keys < m.children.length := by
    intro q m hm
    have hcounts := (internal_sound hm).counts
    have := Keys.firstLarger_le_length key m.keys
    omega
  refine Safe.map ((safe_descendFromRootWithin ht hacyclic hlimit _ hnext).mono ?_)
  rintro ⟨l, above⟩ t' - ⟨hsame, q, hq⟩
  have hpage : l.page = q := t.valid_view.page_eq hq
  exact ⟨hsame, hpage ▸ hq⟩

theorem safe_findLeaf (key : Field) :
    Safe (findLeaf key) t fun l t' =>
      t.SameNodes t' ∧ t.node? l.page = some (.leaf l) :=
  safe_findLeafWithin ht hacyclic t.shownBelow_stepLimit key

theorem safe_heightWithin {limit : Nat} (hlimit : t.ShownBelow limit) :
    Safe (heightWithin limit) t fun _ t' => t.SameNodes t' := by
  have hnext : ∀ q m, t.node? q = some (.internal m) → 0 < m.children.length := by
    intro q m hm
    have hcounts := (internal_sound hm).counts
    omega
  refine (safe_descendFromRootWithin ht hacyclic hlimit (fun _ => 0) hnext).bind ?_
  exact fun a t' ht' h => safe_pure ht'.paged h.1

theorem safe_height : Safe height t fun _ t' => t.SameNodes t' :=
  safe_heightWithin ht hacyclic t.shownBelow_stepLimit

end

theorem safe_isEmpty (ht : t.Paged) : Safe isEmpty t fun _ t' => t.SameNodes t' := by
  refine safe_get_bind ((safe_fetchNode ht t.root).bind fun n t' ht' ⟨hsame, _⟩ => ?_)
  cases n with
  | leaf l => exact safe_pure ht'.paged hsame
  | internal n => exact safe_pure ht'.paged hsame

end Tree
end RecordIndex
