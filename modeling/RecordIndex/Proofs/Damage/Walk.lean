import RecordIndex.Proofs.Damage.Links
import RecordIndex.Proofs.Places

/-!
# Checking a damaged tree

The check keeps no list of the pages that it has seen, and a damaged file may list a page several
times or lead round in a circle. Still no page is let pass twice: a node names one parent, so that a
second place for it would be another one below the same node, and the ranges of two such places have
no key in common (`Place.Apart`).

* `Tree.Walk t seen queue`: the places that have been let pass and those that are still to be looked
  at, with no two of them for one node.
* `Tree.Walk.step`: one place more is let pass, which is on a page of its own.
* `Tree.safe_audit`: the check answers or fails with an error.
-/

namespace RecordIndex

open RecordIndex.Action

namespace Place

variable {a b p : Place} {n : Node}

/-- No node fits both places: it would link to one parent, and its keys to the left and to the right
of a key of the parent. -/
def Apart (a b : Place) : Prop :=
  a.parent = b.parent → a.parent ≠ none ∧ ∃ u ∈ a.upper, ∃ l ∈ b.lower, u ≤ l

theorem Apart.not_both (h : a.Apart b) {keyType : FieldType} (hcounts : n.CountsAgree)
    (ha : a.check keyType n = .ok ()) (hb : b.check keyType n = .ok ()) : False := by
  obtain ⟨hparent, -, -, hwithin, hoccupied⟩ := check_eq_ok_iff.1 ha
  obtain ⟨hparent', -, -, hwithin', -⟩ := check_eq_ok_iff.1 hb
  obtain ⟨hsome, u, hu, l, hl, hle⟩ := h (hparent.symm.trans hparent')
  rw [Option.isNone_eq_false_iff.2 (Option.ne_none_iff_isSome.1 hsome)] at hoccupied
  -- only the root may have no keys
  have hkeys : 0 < n.keys.length := by
    cases n with
    | leaf m =>
      have hmin : minLeafKeys ≤ m.keys.length := hoccupied.1
      exact Nat.lt_of_lt_of_le (by decide) hmin
    | internal m =>
      have hmin : minChildren ≤ m.children.length := hoccupied.1
      have hlen : m.children.length = m.keys.length + 1 := hcounts
      show 0 < m.keys.length
      unfold minChildren at hmin
      omega
  obtain ⟨k, ks, hk⟩ := List.exists_cons_of_length_pos hkeys
  have hmem : k ∈ n.keys := hk ▸ List.mem_cons_self
  exact absurd ((hwithin k hmem).2 u hu) (not_lt_of_ge (hle.trans ((hwithin' k hmem).1 l hl)))

/-- Behind a key all places of a row start at it or at a larger one. -/
theorem exists_lower_of_mem_row {parent q : PageId} {depth : Nat} {k : Field} {upper : Option Field}
    {rest : List (Field × PageId)} (hkeys : (k :: rest.map Prod.fst).Pairwise (· < ·))
    (hb : b ∈ row parent depth (some k) q rest upper) : ∃ l ∈ b.lower, k ≤ l := by
  induction rest generalizing k q with
  | nil =>
    obtain rfl := List.mem_singleton.1 hb
    exact ⟨k, rfl, le_refl k⟩
  | cons e rest ih =>
    obtain ⟨hk, hrest⟩ := List.pairwise_cons.1 hkeys
    rcases List.mem_cons.1 hb with rfl | hb
    · exact ⟨k, rfl, le_refl k⟩
    · obtain ⟨l, hl, hle⟩ := ih hrest hb
      exact ⟨l, hl, (hk e.1 List.mem_cons_self).le.trans hle⟩

theorem apart_row {parent q : PageId} {depth : Nat} {lower upper : Option Field}
    {rest : List (Field × PageId)} (hkeys : (rest.map Prod.fst).Pairwise (· < ·)) :
    (row parent depth lower q rest upper).Pairwise Apart := by
  induction rest generalizing lower q with
  | nil => exact List.pairwise_singleton _ _
  | cons e rest ih =>
    refine List.pairwise_cons.2 ⟨fun b hb _ => ⟨nofun, e.1, rfl, ?_⟩,
      ih (List.pairwise_cons.1 hkeys).2⟩
    exact exists_lower_of_mem_row hkeys hb

/-- The places below a node. -/
def below (p : Place) : Node → List Place
  | .leaf _ => []
  | .internal n => p.children n

theorem parent_of_mem_below (ha : a ∈ p.below n) : a.parent = some n.page := by
  cases n with
  | leaf l => cases ha
  | internal m =>
    obtain ⟨e, -, rfl⟩ := List.mem_map.1 ha
    rfl

theorem apart_below (hcounts : n.CountsAgree) (hkeys : n.keys.Pairwise (· < ·)) :
    (p.below n).Pairwise Apart := by
  cases n with
  | leaf l => exact .nil
  | internal m =>
    obtain ⟨q, rest, hfst, hrow⟩ := Internal.exists_row hcounts
    rw [below, children_eq hfst.symm hrow.symm]
    exact apart_row (hfst.symm ▸ hkeys)

end Place

namespace Tree

variable {t t' : Tree} {place : Place} {seen queue : List Place} {sum : TreeMeasures}

/-! ### The walk -/

/-- The node that is shown at a place has been let pass. -/
def Passed (t : Tree) (place : Place) (n : Node) : Prop :=
  t.node? place.page = some n ∧ place.check t.keyType n = .ok ()

/-- The walk has let pass the places in `seen`, one page each, and has those in `queue` before it. -/
structure Walk (t : Tree) (seen queue : List Place) : Prop where
  apart : (seen ++ queue).Pairwise Place.Apart
  passed : ∀ p ∈ seen, ∃ n, t.Passed p n
  parent : ∀ p ∈ seen ++ queue, ∀ q, p.parent = some q → q ∈ seen.map Place.page
  nodup : (seen.map Place.page).Nodup

namespace Walk

/-- The walk begins at the root. -/
theorem start (t : Tree) : t.Walk [] [.root t.root] where
  apart := List.pairwise_singleton _ _
  passed := by simp
  parent := by simp [Place.root]
  nodup := .nil

/-- Another tree that shows the same. -/
theorem congr (h : t.Walk seen queue) (hsame : t.SameNodes t') (htype : t'.keyType = t.keyType) :
    t'.Walk seen queue where
  apart := h.apart
  passed p hp := by simpa only [Passed, hsame.node?_eq, htype] using h.passed p hp
  parent := h.parent
  nodup := h.nodup

/-- A place that is let pass is on none of the pages before. -/
theorem page_notMem (h : t.Walk seen (place :: queue)) {n : Node} (hn : t.Passed place n) :
    place.page ∉ seen.map Place.page := by
  intro hmem
  obtain ⟨p, hp, hpage⟩ := List.mem_map.1 hmem
  obtain ⟨m, hm, hcheck⟩ := h.passed p hp
  rw [hpage, hn.1] at hm
  cases hm
  have hapart : p.Apart place :=
    (List.pairwise_append.1 h.apart).2.2 p hp place List.mem_cons_self
  exact hapart.not_both (t.valid_view.encodable hn.1).counts hcheck hn.2

/-- A place is let pass, and the places below it are put behind the others. -/
theorem step (h : t.Walk seen (place :: queue)) {n : Node} (hn : t.Passed place n) :
    t.Walk (seen ++ [place]) (queue ++ place.below n) := by
  have hpage : n.page = place.page := t.valid_view.page_eq hn.1
  have hnew := h.page_notMem hn
  have hlist : seen ++ [place] ++ (queue ++ place.below n) =
      (seen ++ place :: queue) ++ place.below n := by simp
  have hkeys := (Place.check_eq_ok_iff.1 hn.2).2.2.1
  have hseen : (seen ++ [place]).map Place.page = seen.map Place.page ++ [place.page] := by simp
  constructor
  · rw [hlist]
    refine List.pairwise_append.2 ⟨h.apart,
      Place.apart_below (t.valid_view.encodable hn.1).counts hkeys, fun a ha b hb heq => ?_⟩
    -- the places before are not below this one
    rw [Place.parent_of_mem_below hb, hpage] at heq
    exact absurd (h.parent a ha _ heq) hnew
  · intro p hp
    rcases List.mem_append.1 hp with hp | hp
    · exact h.passed p hp
    · rw [List.mem_singleton.1 hp]
      exact ⟨n, hn⟩
  · rw [hlist, hseen]
    intro p hp q hq
    rcases List.mem_append.1 hp with hp | hp
    · exact List.mem_append_left _ (h.parent p hp q hq)
    · rw [Place.parent_of_mem_below hp, hpage] at hq
      cases hq
      exact List.mem_append_right _ List.mem_cons_self
  · rw [hseen]
    exact h.nodup.append (List.nodup_singleton _) (by simpa using hnew)

/-- Fewer places have been let pass than there are pages. -/
theorem length_lt (h : t.Walk seen queue) {n : Nat} (hn : t.ShownBelow n) : seen.length < n := by
  rw [← List.length_map Place.page]
  refine length_lt_of_shown hn h.nodup fun q hq => ?_
  obtain ⟨p, hp, rfl⟩ := List.mem_map.1 hq
  obtain ⟨m, hm, -⟩ := h.passed p hp
  exact ⟨m, hm⟩

end Walk

/-! ### Its steps -/

theorem safe_auditEntries (ht : t.Paged) (l : Leaf) :
    Safe (auditEntries l) t fun _ t' => t.SameNodes t' := by
  rw [auditEntries, List.forM_eq_forM]
  generalize l.keys.zip l.records = es
  induction es generalizing t with
  | nil => exact safe_pure ht ⟨rfl, rfl⟩
  | cons e es ih =>
    rw [List.forM_cons]
    have hentry : Safe (onRecords (RecordFile.fetch e.2) >>= fun record =>
        if record.key = e.1 then pure ()
        else fail (.invariantViolation (.entryKey l.page e.1 e.2 record.key))) t
        fun _ t' => t.SameNodes t' := by
      refine (safe_onRecords ht (RecordFile.faultless_fetch e.2)).bind fun r t₁ ht₁ hindex => ?_
      split_ifs
      · exact safe_pure ht₁.paged (sameNodes_of_index_eq hindex)
      · exact safe_fail ht₁.paged _
    refine hentry.bind fun _ t₁ ht₁ hsame => ?_
    exact (ih ht₁.paged).mono fun _ _ _ hsame' => hsame.trans hsame'

theorem safe_auditPlace (ht : t.Paged) (place : Place) (sum : TreeMeasures) :
    Safe (auditPlace place sum) t fun a t' =>
      t.SameNodes t' ∧ ∃ n, t.Passed place n ∧ a.2 = place.below n := by
  refine (safe_fetchNode ht place.page).bind fun n t₁ ht₁ ⟨hsame, hn⟩ => safe_get_bind ?_
  refine (safe_ofExcept (Q := fun _ t' => t' = t₁ ∧ t.Passed place n) ht₁.paged
    fun _ hcheck => ⟨rfl, hn, ht₁.keyType_eq ▸ hcheck⟩).bind ?_
  rintro - t₁ - ⟨rfl, hpassed⟩
  cases n with
  | internal m => exact safe_pure ht₁.paged ⟨hsame, _, hpassed, rfl⟩
  | leaf l =>
    refine (safe_ofExcept (Q := fun _ t' => t' = t₁) ht₁.paged fun _ _ => rfl).bind ?_
    rintro - t₁ - rfl
    refine (safe_auditEntries ht₁.paged l).bind fun _ t₂ ht₂ hsame' => ?_
    exact safe_pure ht₂.paged ⟨hsame.trans hsame', _, hpassed, rfl⟩

/-- There are as many steps as pages that have not been let pass. -/
theorem safe_auditPlaces {n : Nat} (hn : t.ShownBelow n) (ht : t.Paged) (h : t.Walk seen queue)
    {steps : Nat} (hsteps : n ≤ steps + seen.length) (sum : TreeMeasures) :
    Safe (auditPlaces steps queue sum) t fun _ _ => True := by
  induction steps generalizing t seen queue sum with
  | zero =>
    have := h.length_lt hn
    omega
  | succ steps ih =>
    cases queue with
    | nil => exact safe_pure ht trivial
    | cons place queue =>
      refine (safe_auditPlace ht place sum).bind ?_
      rintro ⟨sum', below⟩ t₁ ht₁ ⟨hsame, m, hpassed, rfl⟩
      refine ih (hsame.shownBelow hn) ht₁.paged ((h.step hpassed).congr hsame ht₁.keyType_eq) ?_ sum'
      rw [List.length_append, List.length_singleton]
      omega

/-- The tree is checked, or the check fails with an error. -/
theorem safe_audit (ht : t.Paged) : Safe audit t fun _ _ => True :=
  safe_get_bind (safe_auditPlaces t.shownBelow_stepLimit ht (.start t) (Nat.le_add_right _ _) .zero)

end Tree
end RecordIndex
