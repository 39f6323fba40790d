import RecordIndex.Proofs.CleanFiles
import RecordIndex.Proofs.Height
import RecordIndex.Proofs.Outcomes

/-!
# The root and the height

The root of a tree moves when, and only when, the number of its levels changes. It goes up to a page
that was not there before, above the old root (`Tree.RootRaised`), or down to a child of the old root,
whose page is given up (`Tree.RootLowered`).

* `Tree.RootMoves`: what this comes to between two states of a tree.
* `Tree.root_moves_with_height`: every change, whether or not it fails, moves the root in this way.
-/

namespace RecordIndex

open RecordIndex.Action

/-- How a change may change the height of a tree. -/
def Change.Levels : Change → Nat → Nat → Prop
  | .insert _, before, after => after = before ∨ after = before + 1
  | .update _, before, after => after = before
  | .delete _, before, after => after = before ∨ before = after + 1

theorem Change.levels_refl (c : Change) (n : Nat) : c.Levels n n := by
  cases c with
  | insert r => exact .inl rfl
  | update r => rfl
  | delete key => exact .inl rfl

namespace Tree

/-- The root is on a page that was not there before. It has one key and two children, the old root
first. -/
structure RootRaised (t t' : Tree) : Prop where
  fresh : t.pageCount.toNat ≤ t'.root.number.toNat ∧ t'.root.number.toNat < t'.pageCount.toNat
  node : ∃ key right, t'.node? t'.root =
    some (.internal ⟨t'.root, none, t'.keyType, [key], [t.root, right]⟩)

/-- The root was a child of the old root and has no parent any more, and the page of the old root is
filled with zeros. -/
structure RootLowered (t t' : Tree) : Prop where
  child : ∃ old, t.node? t.root = some (.internal old) ∧ t'.root ∈ old.children
  node : ∃ n, t'.node? t'.root = some n ∧ n.parent = none
  zeroed : t'.store.index.Zeroed t.root.number

/-- The tree has at least one level before and after, and its root moves exactly if their number
changes. -/
structure RootMoves (t t' : Tree) (before after : Nat) : Prop where
  height_before : answer (height t) = .ok before
  height_after : answer (height t') = .ok after
  pos : 1 ≤ before ∧ 1 ≤ after
  root_ne_iff : t'.root ≠ t.root ↔ after ≠ before
  raised : before < after → t.RootRaised t'
  lowered : after < before → t.RootLowered t'

variable {t t' : Tree} {H H' : Nat} {s : Shape H} {s' : Shape H'}

theorem node?_root (hs : t.view.HasShape s) : t.node? t.root = some (s.node t.keyType none) := by
  have hroot : t.root = s.page := hs.root_eq
  rw [hroot]
  exact hs.stored.1

/-- Nothing moves. -/
theorem rootMoves_of_eq {s' : Shape H} (hs : t.view.HasShape s) (hs' : t'.view.HasShape s')
    (hroot : t'.root = t.root) : t.RootMoves t' (H + 1) (H + 1) where
  height_before := answer_height hs
  height_after := answer_height hs'
  pos := ⟨Nat.succ_pos H, Nat.succ_pos H⟩
  root_ne_iff := iff_of_false (fun h => h hroot) fun h => h rfl
  raised h := absurd h (Nat.lt_irrefl _)
  lowered h := absurd h (Nat.lt_irrefl _)

theorem rootMoves_of_raises (hs : t.view.HasShape s) (hs' : t'.view.HasShape s')
    (h : t.view.Raises t'.view H H') : t.RootMoves t' (H + 1) (H' + 1) := by
  rcases h with ⟨rfl, hroot⟩ | ⟨rfl, hle, k, q, hnode⟩
  · exact rootMoves_of_eq hs hs' hroot
  · -- the old root was on a page, and the new one is behind all of them
    have hlt : t.root.number.toNat < t.pageCount.toNat := (t.valid_view.hasPage (node?_root hs)).2
    have hnew : t.pageCount.toNat ≤ t'.root.number.toNat := hle
    have hne : t'.root ≠ t.root := fun heq => Nat.not_lt.2 hnew (heq ▸ hlt)
    exact
      { height_before := answer_height hs
        height_after := answer_height hs'
        pos := ⟨Nat.succ_pos _, Nat.succ_pos _⟩
        root_ne_iff := iff_of_true hne (Nat.succ_ne_self _)
        raised := fun _ => ⟨⟨hnew, (t'.valid_view.hasPage hnode).2⟩, k, q, hnode⟩
        lowered := fun hlt => absurd hlt (Nat.not_lt.2 (Nat.le_succ _)) }

theorem rootMoves_of_lowers (hs : t.view.HasShape s) (hs' : t'.view.HasShape s')
    (h : t.view.Lowers t'.view s H')
    (hzeroed : t'.node? t.root = none → t'.store.index.Zeroed t.root.number) :
    t.RootMoves t' (H + 1) (H' + 1) := by
  rcases h with ⟨rfl, hroot⟩ | ⟨rfl, hmem, hnone⟩
  · exact rootMoves_of_eq hs hs' hroot
  · -- there is a node on the page of the root, and none on that of the old one
    have hnode := node?_root hs'
    have hnone : t'.node? t.root = none := hnone
    have hne : t'.root ≠ t.root := fun heq => by
      rw [heq, hnone] at hnode
      cases hnode
    exact
      { height_before := answer_height hs
        height_after := answer_height hs'
        pos := ⟨Nat.succ_pos _, Nat.succ_pos _⟩
        root_ne_iff := iff_of_true hne (Nat.succ_ne_self _).symm
        raised := fun hlt => absurd hlt (Nat.not_lt.2 (Nat.le_succ _))
        lowered := fun _ =>
          ⟨⟨_, node?_root hs, hmem⟩, ⟨_, hnode, s'.parent_node _ _⟩, hzeroed hnone⟩ }

/-- Where a change leaves no node on a page that had one, it has filled the page with zeros. -/
theorem zeroed_run (c : Change) (hstep : t.InStep) {p : PageId} {n : Node}
    (hold : t.node? p = some n) (hp : (finalState (c.run t)).view.HasPage p)
    (hnew : (finalState (c.run t)).node? p = none) :
    (finalState (c.run t)).store.index.Zeroed p.number := by
  obtain ⟨k, u, b, hw, heq⟩ := c.exists_writes hstep.opened
  rw [heq] at hp hnew ⊢
  exact hw.zeroed hstep (Nat.zero_le _) hold hp hnew

/-- Whether or not it fails, an insertion leaves a well-formed tree as high as it was or one level
higher, and a deletion as high as it was or one level lower, but never without a level; an update
leaves the height as it is. The root moves exactly if the height changes. -/
theorem root_moves_with_height (hstep : t.InStep) (hwell : t.WellFormed)
    (c : Change) : ∃ before after : Nat,
      t.RootMoves (finalState (c.run t)) before after ∧ c.Levels before after := by
  obtain ⟨H, s, hs⟩ := hwell
  obtain ⟨o, -, -, hcomes⟩ := Change.comes_run hstep hs c
  have hzeroed := fun hp => zeroed_run c hstep (node?_root hs) hp
  have hpage := t.valid_view.hasPage (node?_root hs)
  revert hcomes hzeroed
  generalize finalState (c.run t) = t'
  intro hcomes hzeroed
  generalize hv : t'.view = v' at hcomes
  cases hcomes with
  | refused e =>
    have hs' : t'.view.HasShape s := hv ▸ hs
    exact ⟨_, _, rootMoves_of_eq hs hs' (congrArg View.root hv), c.levels_refl _⟩
  | inserted s' hkey hkeep hs' hraises hentries =>
    subst hv
    refine ⟨_, _, rootMoves_of_raises hs hs' hraises, ?_⟩
    exact hraises.imp (fun h => congrArg (· + 1) h.1) fun h => congrArg (· + 1) h.1
  | brokenOff cause s' hs' hroot =>
    subst hv
    exact ⟨_, _, rootMoves_of_eq hs hs' hroot, Change.levels_refl _ _⟩
  | updated he =>
    have hs' : t'.view.HasShape s := hv ▸ hasShape_setRecord hs he
    exact ⟨_, _, rootMoves_of_eq hs hs' (congrArg View.root hv), Change.levels_refl _ _⟩
  | deleted s' he hkeep hs' hlowers hentries =>
    subst hv
    refine ⟨_, _, rootMoves_of_lowers hs hs' hlowers (hzeroed ⟨hpage.1,
      Nat.lt_of_lt_of_le hpage.2 hkeep.pageCount_le⟩), ?_⟩
    exact hlowers.imp (fun h => congrArg (· + 1) h.1) fun h => congrArg (· + 1) h.1

/-- A sixth record raises the root of a new tree, and deleting one of the six lowers it. -/
theorem root_moves_with_height_newStore : ∃ t t' t'' : Tree,
    finalState ((Change.insert (scored 6 0)).run t) = t' ∧
    finalState ((Change.delete (.int32 1)).run t') = t'' ∧
    t.RootMoves t' 1 2 ∧ t.RootRaised t' ∧ t'.RootMoves t'' 2 1 ∧ t'.RootLowered t'' := by
  obtain ⟨t, t', t'', ht', ht'', ⟨hfive, hone⟩, ⟨hsix, htwo, -⟩, hone'⟩ := exists_split_newStore
  obtain ⟨before, after, hup, -⟩ :=
    root_moves_with_height hfive.inStep hfive.view.wellFormed (.insert (scored 6 0))
  rw [ht'] at hup
  cases hup.height_before.symm.trans hone
  cases hup.height_after.symm.trans htwo
  obtain ⟨before, after, hdown, -⟩ :=
    root_moves_with_height hsix.inStep hsix.view.wellFormed (.delete (.int32 1))
  rw [ht''] at hdown
  cases hdown.height_before.symm.trans htwo
  cases hdown.height_after.symm.trans hone'
  exact ⟨t, t', t'', ht', ht'', hup, hup.raised (by decide), hdown, hdown.lowered (by decide)⟩

end Tree
end RecordIndex
