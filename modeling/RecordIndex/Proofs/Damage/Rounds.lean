import RecordIndex.Proofs.View
import RecordIndex.Tree.Change

/-!
# Rounds of the walks

The walks of a tree are given up after `Tree.stepLimit` rounds. Here that limit is a parameter, so that
it can be said how many rounds a walk makes: it makes at most as many as `limit` if with this limit, and
with every larger one, it ends in the same way and is not given up.

* `Tree.findLeafWithin`, `Tree.heightWithin`, `Tree.insertWithin` and `Tree.deleteWithin` are the
  operations with walks of at most `limit` rounds each. With `Tree.stepLimit` they are the operations of
  the tree (`Tree.addRecord_eq`, `Tree.removeKey_eq`).
* `Action.Outlasts y x s`: unless `x` gives a walk up, `y` ends as it does. A larger limit outlasts a
  smaller one.
-/

namespace RecordIndex

namespace Action

variable {σ α β : Type} {s : σ}

/-- Run on `s`, the action `y` ends as `x` does, unless `x` gives a walk up. -/
def Outlasts (y x : Action σ α) (s : σ) : Prop :=
  answer (x s) ≠ .error (.fault .endlessWalk) → y s = x s

theorem Outlasts.refl (x : Action σ α) (s : σ) : Outlasts x x s := fun _ => rfl

theorem outlasts_fault (y : Action σ α) (s : σ) : Outlasts y (fault .endlessWalk) s :=
  fun h => absurd rfl h

theorem Outlasts.bind {x y : Action σ α} {f g : α → Action σ β} (h : Outlasts y x s)
    (hf : ∀ a s', x s = .ok a s' → Outlasts (g a) (f a) s') : Outlasts (y >>= g) (x >>= f) s := by
  intro hanswer
  rw [run_bind] at hanswer
  rw [run_bind, run_bind]
  cases hx : x s with
  | error e s' =>
    rw [hx] at hanswer
    have hy : y s = .error e s' := by
      rw [h fun he => hanswer (congrArg Except.error ?_), hx]
      rw [hx] at he
      exact Except.error.inj he
    rw [hy]
  | ok a s' =>
    rw [hx] at hanswer
    have hy : y s = .ok a s' := by rw [h (by rw [hx]; nofun), hx]
    rw [hy]
    exact hf a s' hx hanswer

/-- The same first step. -/
theorem outlasts_bind {x : Action σ α} {f g : α → Action σ β}
    (hf : ∀ a s', x s = .ok a s' → Outlasts (g a) (f a) s') : Outlasts (x >>= g) (x >>= f) s :=
  (Outlasts.refl x s).bind hf

theorem Outlasts.map {x y : Action σ α} (h : Outlasts y x s) (f : α → β) :
    Outlasts (f <$> y) (f <$> x) s := by
  rw [map_eq_pure_bind, map_eq_pure_bind]
  exact h.bind fun a s' _ => .refl _ s'

/-- The steps after a first one need to agree on what it leaves only. -/
theorem bind_congr_ok {x : Action σ α} {f g : α → Action σ β}
    (h : ∀ a s', x s = .ok a s' → g a s' = f a s') : (x >>= g) s = (x >>= f) s := by
  rw [run_bind, run_bind]
  cases hx : x s with
  | error e s' => rfl
  | ok a s' => exact h a s' hx

end Action

namespace Tree

open RecordIndex.Action

variable {t t' : Tree}

/-! ### Walks with a limit -/

/-- Follows child pointers from the root to a leaf, in at most `limit` rounds. -/
def descendFromRootWithin (limit : Nat) (next : Internal → Nat) : TreeAction (Leaf × Nat) := do
  descend next limit (← get).root

/-- The leaf that holds a key if any does, found in at most `limit` rounds. -/
def findLeafWithin (limit : Nat) (key : Field) : TreeAction Leaf :=
  Prod.fst <$> descendFromRootWithin limit fun n => Keys.firstLarger key n.keys

/-- The number of levels, counted in at most `limit` rounds. -/
def heightWithin (limit : Nat) : TreeAction Nat := do
  let (_, above) ← descendFromRootWithin limit fun _ => 0
  return above + 1

/-- Puts a record into the tree. The way down and the way up take at most `limit` rounds each. -/
def addRecordWithin (limit : Nat) (r : Record) : TreeAction Unit := do
  let leaf ← findLeafWithin limit r.key
  if (Keys.indexOf? r.key leaf.keys).isSome then
    Action.fail (.alreadyExists r.key)
  else
    let id ← onRecords (RecordFile.add r)
    let leaf ← Action.ofChecked
      (leaf.insertEntry (Keys.firstLarger r.key leaf.keys) r.key id)
    if leaf.size ≤ maxLeafKeys then
      putLeaf leaf
    else
      attachSplit limit (← splitLeafPage leaf)

/-- Takes a key and its record out of the tree. The way down and the way up take at most `limit` rounds
each. -/
def removeKeyWithin (limit : Nat) (key : Field) : TreeAction Unit := do
  let leaf ← findLeafWithin limit key
  match Keys.indexOf? key leaf.keys with
  | none => Action.fail (.notFound key)
  | some i =>
    let (id, leaf) ← Action.ofChecked (leaf.removeEntry i)
    onRecords (RecordFile.erase id)
    match leaf.parent with
    | none => putLeaf leaf
    | some p =>
      if minLeafKeys ≤ leaf.size then
        putLeaf leaf
      else
        mendLeaf limit p leaf

/-- Adds a record, with walks of at most `limit` rounds. -/
def insertWithin (limit : Nat) (r : Record) : TreeAction Unit := do
  requireIntact
  requireStorable r
  guarded (addRecordWithin limit r)

/-- Removes a key and its record, with walks of at most `limit` rounds. -/
def deleteWithin (limit : Nat) (key : Field) : TreeAction Unit := do
  requireIntact
  requireKeyType key
  guarded (removeKeyWithin limit key)

/-! ### The limit of the program -/

/-- A way down leaves the pages as they are. -/
theorem pageCount_of_descend {next : Internal → Nat} {steps : Nat} {p : PageId} {a : Leaf × Nat}
    (h : descend next steps p t = .ok a t') : t'.pageCount = t.pageCount := by
  induction steps generalizing t p a with
  | zero => cases h
  | succ steps ih =>
    obtain ⟨node, t₁, hnode, h⟩ := bind_eq_ok_iff.1 h
    obtain ⟨-, rfl⟩ := fetchNode_eq_ok_iff.1 hnode
    cases node with
    | leaf l =>
      cases h
      rfl
    | internal n =>
      obtain ⟨child, t₂, hchild, h⟩ := bind_eq_ok_iff.1 h
      obtain ⟨-, rfl⟩ := ofChecked_eq_ok_iff.1 hchild
      obtain ⟨b, t₃, hrest, h⟩ := bind_eq_ok_iff.1 h
      cases h
      exact (ih hrest).trans rfl

theorem pageCount_of_findLeafWithin {limit : Nat} {key : Field} {l : Leaf}
    (h : findLeafWithin limit key t = .ok l t') : t'.pageCount = t.pageCount := by
  obtain ⟨a, h, -⟩ := map_eq_ok_iff.1 h
  exact pageCount_of_descend h

theorem pageCount_of_onRecords {α : Type} {x : SlotAction α} {a : α}
    (h : onRecords x t = .ok a t') : t'.pageCount = t.pageCount := by
  obtain ⟨f, -, rfl⟩ := onRecords_eq_ok_iff.1 h
  rfl

/-- The pages are counted after the way down, which adds none. -/
theorem addRecord_eq (r : Record) (t : Tree) :
    addRecord r t = addRecordWithin t.stepLimit r t := by
  refine bind_congr_ok (x := findLeafWithin t.stepLimit r.key) fun leaf t₁ h₁ => ?_
  split_ifs
  · rfl
  refine bind_congr_ok fun id t₂ h₂ => bind_congr_ok fun l t₃ h₃ => ?_
  obtain ⟨-, rfl⟩ := ofChecked_eq_ok_iff.1 h₃
  have hcount : t₂.stepLimit = t.stepLimit := by
    rw [stepLimit, pageCount_of_onRecords h₂, pageCount_of_findLeafWithin h₁, stepLimit]
  split_ifs
  · rfl
  · rw [← hcount]
    rfl

theorem removeKey_eq (key : Field) (t : Tree) :
    removeKey key t = removeKeyWithin t.stepLimit key t := by
  refine bind_congr_ok (x := findLeafWithin t.stepLimit key) fun leaf t₁ h₁ => ?_
  cases Keys.indexOf? key leaf.keys with
  | none => rfl
  | some i =>
    refine bind_congr_ok fun a t₂ h₂ => ?_
    obtain ⟨-, rfl⟩ := ofChecked_eq_ok_iff.1 h₂
    refine bind_congr_ok fun _ t₃ h₃ => ?_
    have hcount : t₃.stepLimit = t.stepLimit := by
      rw [stepLimit, pageCount_of_onRecords h₃, pageCount_of_findLeafWithin h₁, stepLimit]
    cases a.2.parent with
    | none => rfl
    | some p =>
      dsimp only
      split_ifs
      · rfl
      · rw [← hcount]
        rfl

/-! ### Larger limits -/

variable {k limit : Nat}

theorem outlasts_descend (h : k ≤ limit) (next : Internal → Nat) (p : PageId) (t : Tree) :
    Outlasts (descend next limit p) (descend next k p) t := by
  induction k generalizing limit p t with
  | zero => exact outlasts_fault _ t
  | succ k ih =>
    obtain ⟨limit, rfl⟩ := Nat.exists_eq_succ_of_ne_zero (by omega : limit ≠ 0)
    refine outlasts_bind fun node t₁ _ => ?_
    cases node with
    | leaf l => exact .refl _ t₁
    | internal n =>
      refine outlasts_bind fun child t₂ _ => ?_
      exact (ih (Nat.le_of_succ_le_succ h) child t₂).bind fun a t₃ _ => .refl _ t₃

theorem outlasts_attachSplit (h : k ≤ limit) (s : Split) (t : Tree) :
    Outlasts (attachSplit limit s) (attachSplit k s) t := by
  induction k generalizing limit s t with
  | zero => exact outlasts_fault _ t
  | succ k ih =>
    obtain ⟨limit, rfl⟩ := Nat.exists_eq_succ_of_ne_zero (by omega : limit ≠ 0)
    rw [attachSplit, attachSplit]
    cases s.parent with
    | none => exact .refl _ t
    | some p =>
      refine outlasts_bind fun parent t₁ _ => outlasts_bind fun m t₂ _ => ?_
      split_ifs
      · exact .refl _ t₂
      · exact outlasts_bind fun s' t₃ _ => ih (Nat.le_of_succ_le_succ h) s' t₃

theorem outlasts_mendInternal (h : k ≤ limit) (node : Internal) (t : Tree) :
    Outlasts (mendInternal limit node) (mendInternal k node) t := by
  induction k generalizing limit node t with
  | zero => exact outlasts_fault _ t
  | succ k ih =>
    obtain ⟨limit, rfl⟩ := Nat.exists_eq_succ_of_ne_zero (by omega : limit ≠ 0)
    rw [mendInternal, mendInternal]
    cases node.parent with
    | none => exact .refl _ t
    | some p =>
      dsimp only
      split_ifs
      · exact .refl _ t
      refine outlasts_bind fun parent t₁ _ => outlasts_bind fun slot t₂ _ =>
        outlasts_bind fun ⟨left, right⟩ t₃ _ => ?_
      dsimp only
      rcases Remedy.choose Internal.size minChildren maxChildren node left right with
        - | ⟨right | left | right | left⟩
      · exact .refl _ t₃
      · exact outlasts_bind fun m t₄ _ => ih (Nat.le_of_succ_le_succ h) m t₄
      · exact outlasts_bind fun m t₄ _ => ih (Nat.le_of_succ_le_succ h) m t₄
      · exact .refl _ t₃
      · exact .refl _ t₃

theorem outlasts_mendLeaf (h : k ≤ limit) (p : PageId) (leaf : Leaf) (t : Tree) :
    Outlasts (mendLeaf limit p leaf) (mendLeaf k p leaf) t := by
  refine outlasts_bind fun parent t₁ _ => outlasts_bind fun slot t₂ _ =>
    outlasts_bind fun ⟨left, right⟩ t₃ _ => ?_
  dsimp only
  rcases Remedy.choose Leaf.size minLeafKeys maxLeafKeys leaf left right with
    - | ⟨right | left | right | left⟩
  · exact .refl _ t₃
  · exact outlasts_bind fun m t₄ _ => outlasts_mendInternal h m t₄
  · exact outlasts_bind fun m t₄ _ => outlasts_mendInternal h m t₄
  · exact .refl _ t₃
  · exact .refl _ t₃

theorem outlasts_findLeafWithin (h : k ≤ limit) (key : Field) (t : Tree) :
    Outlasts (findLeafWithin limit key) (findLeafWithin k key) t :=
  Outlasts.map (outlasts_bind fun t₁ t₂ _ => outlasts_descend h _ t₁.root t₂) _

theorem outlasts_heightWithin (h : k ≤ limit) (t : Tree) :
    Outlasts (heightWithin limit) (heightWithin k) t :=
  Outlasts.bind (outlasts_bind fun t₁ t₂ _ => outlasts_descend h _ t₁.root t₂) fun _ t₃ _ => .refl _ t₃

theorem outlasts_addRecordWithin (h : k ≤ limit) (r : Record) (t : Tree) :
    Outlasts (addRecordWithin limit r) (addRecordWithin k r) t := by
  refine (outlasts_findLeafWithin h r.key t).bind fun leaf t₁ _ => ?_
  split_ifs
  · exact .refl _ t₁
  refine outlasts_bind fun id t₂ _ => outlasts_bind fun l t₃ _ => ?_
  split_ifs
  · exact .refl _ t₃
  · exact outlasts_bind fun s t₄ _ => outlasts_attachSplit h s t₄

theorem outlasts_removeKeyWithin (h : k ≤ limit) (key : Field) (t : Tree) :
    Outlasts (removeKeyWithin limit key) (removeKeyWithin k key) t := by
  refine (outlasts_findLeafWithin h key t).bind fun leaf t₁ _ => ?_
  cases Keys.indexOf? key leaf.keys with
  | none => exact .refl _ t₁
  | some i =>
    refine outlasts_bind fun a t₂ _ => outlasts_bind fun _ t₃ _ => ?_
    cases a.2.parent with
    | none => exact .refl _ t₃
    | some p =>
      dsimp only
      split_ifs
      · exact .refl _ t₃
      · exact outlasts_mendLeaf h p a.2 t₃

end Tree
end RecordIndex
