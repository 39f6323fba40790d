import RecordIndex.Proofs.Outcomes

/-!
# Where a change writes

In a well-formed tree, a change writes to the way that the key leads and to the neighbours of this
way, and it links children of these nodes to other parents. On each level it writes a fixed number of
slots.

* `Tree.Spends z x v n`: on the trees that show `v`, the action writes at most `n` slots, all in the
  zone `z`.
* `Zone.Spans` and `Route.Covered`, `Route.Flanked`: the zone holds a node, a way and the neighbours
  of a way.
* `Tree.spends_attachSplit` and `Tree.spends_mendInternal`: the walks upwards stay in such a zone.
* `Change.exists_writesIn`: how much a change writes at most, and where.
* `Change.exists_writes_le`: how much a change writes at most, wherever it writes.
-/

namespace RecordIndex

open RecordIndex.Action

namespace Tree

variable {α β : Type} {z : Zone} {v : View} {m n : Nat} {Q : α → Prop} {F : Failure → Prop}

/-- On every tree that is in step and shows `v`, the action writes at most `n` slots, all in the
zone `z`. -/
def Spends (z : Zone) (x : TreeAction α) (v : View) (n : Nat) : Prop :=
  ∀ t : Tree, t.Shows v → z.fresh ≤ v.pageCount → ∃ k ≤ n, WritesIn z k t (finalState (x t))

section Logic

variable {x : TreeAction α} {f : α → TreeAction β}

theorem Costs.spends (h : Costs z x n Q F) : Spends z x v n := by
  intro t ht hfresh
  obtain ⟨k, hk, hw, -⟩ := h t ht.1.opened (ht.2 ▸ hfresh : z.fresh ≤ t.view.pageCount)
  exact ⟨k, hk, hw⟩

theorem Spends.of_le (h : Spends z x v m) (hn : m ≤ n) : Spends z x v n := by
  intro t ht hfresh
  obtain ⟨k, hk, hw⟩ := h t ht hfresh
  exact ⟨k, hk.trans hn, hw⟩

theorem spends_of_valid (h : v.Valid → Spends z x v n) : Spends z x v n := fun t ht =>
  h ht.valid t ht

theorem spends_get_bind {f : Tree → TreeAction β} (h : ∀ t : Tree, t.Shows v → Spends z (f t) v n) :
    Spends z (get >>= f) v n := fun t ht => h t ht t ht

/-- What comes first only reads. -/
theorem Answers.bind_spends {a : α} (hx : Answers x v (.ok a)) (hf : Spends z (f a) v n) :
    Spends z (x >>= f) v n := by
  intro t ht hfresh
  obtain ⟨i, j, hrun⟩ := hx.run_ok ht.2
  obtain ⟨k, hk, hw⟩ := hf (t.addReads i j) ⟨ht.1.addReads i j, ht.2⟩ hfresh
  rw [run_bind, hrun]
  exact ⟨k, hk, Nat.zero_add k ▸ ((WritesIn.refl t).reads i j).trans hw⟩

theorem Answers.spends {o : Except Failure α} (hx : Answers x v o) : Spends z x v 0 := by
  intro t ht _
  obtain ⟨i, j, -, hs⟩ := hx t ht.2
  exact ⟨0, Nat.le_refl 0, hs ▸ (WritesIn.refl t).reads i j⟩

/-- What is shown after the first action, and where it writes. -/
theorem Yields.bind_spends {P : α → View → Prop} {E : View → Prop} (hy : Yields x v P E)
    (hx : Costs z x m Q F) (hf : ∀ a v', P a v' → Q a → Spends z (f a) v' n) :
    Spends z (x >>= f) v (m + n) := by
  intro t ht hfresh
  have hfresh' : z.fresh ≤ t.pageCount.toNat := (ht.2 ▸ hfresh : z.fresh ≤ t.view.pageCount)
  obtain ⟨k, hk, hw, ha, -⟩ := hx t ht.1.opened hfresh'
  rcases hy t ht with ⟨a, t', v', hrun, ht', hP⟩ | ⟨e, t', v', hrun, -⟩ <;>
    rw [hrun] at hw ha <;> rw [run_bind, hrun]
  · have hle : z.fresh ≤ t'.view.pageCount := hfresh'.trans (hw.pageCount_le ht.1.opened)
    obtain ⟨k', hk', hw'⟩ := hf a v' hP (ha a rfl) t' ht' (ht'.2 ▸ hle)
    exact ⟨k + k', Nat.add_le_add hk hk', hw.trans hw'⟩
  · exact ⟨k, Nat.le_add_right_of_le hk, hw⟩

end Logic

end Tree

/-! ### Zones of nodes and ways -/

open RecordIndex.Tree (Zone)

/-- The node may be written over, and its children may get another parent link. -/
structure Tree.Zone.Spans (z : Zone) {h : Nat} (s : Shape h) : Prop where
  page : z.Holds s.page
  kids : ∀ p ∈ s.kidPages, z.Links p

namespace Route

variable {H h : Nat}

/-- The nodes on the way may be written over, and their children may get another parent link. -/
def Covered (z : Zone) : {h : Nat} → Route H h → Prop
  | _, top => True
  | _, down page left right above =>
    z.Holds page ∧ (∀ e ∈ left, z.Links e.1.page) ∧ (∀ e ∈ right, z.Links e.2.page) ∧
      above.Covered z

/-- So may the neighbours of the way. -/
def Flanked (z : Zone) : {h : Nat} → Route H h → Prop
  | _, top => True
  | _, down _ left right above =>
    (∀ e ∈ left.head?, z.Spans e.1) ∧ (∀ e ∈ right.head?, z.Spans e.2) ∧ above.Flanked z

/-- A node on the way, whatever child is in its place. -/
theorem Covered.spans {z : Zone} {page : PageId} {left : List (Shape h × Field)}
    {right : List (Field × Shape h)} {above : Route H (h + 1)}
    (hr : (down page left right above).Covered z) {s : Shape h} (hs : z.Links s.page) :
    z.Spans (fork page left s right) := by
  obtain ⟨hpage, hleft, hright, -⟩ := hr
  refine ⟨by rwa [page_fork], fun p hp => ?_⟩
  rw [kidPages_fork, List.mem_append, List.mem_reverse, List.mem_cons, List.mem_map,
    List.mem_map] at hp
  rcases hp with ⟨e, he, rfl⟩ | rfl | ⟨e, he, rfl⟩
  · exact hleft e he
  · exact hs
  · exact hright e he

end Route

namespace Tree

variable {z : Zone} {v : View} {H h : Nat}

/-! ### Insertion -/

theorem spends_attachSplit {steps : Nat} {r : Route H h} {left right : Shape h} {k : Field}
    (hs : v.SplitAt r left k right) (hsteps : r.length < steps) (hr : r.Covered z)
    (hleft : z.Links left.page) (hright : z.Links right.page)
    (hroot : ∀ p : PageId, z.fresh ≤ p.number.toNat → z.root p) :
    Spends z (attachSplit steps ⟨left.page, r.parent, k, right.page⟩) v (7 * r.length + 5) := by
  refine spends_of_valid fun hv => ?_
  -- one step for each node on the way up
  induction steps generalizing v h k with
  | zero => exact absurd hsteps (Nat.not_lt_zero _)
  | succ steps ih =>
    cases r with
    | top => exact (costs_addRoot hleft hright hroot).spends
    | down page ls rs above =>
      have hpending := hs.pending hv
      have hspans : z.Spans (Route.fork page ls left ((k, right) :: rs)) := by
        have hcovered : (Route.down page ls ((k, right) :: rs) above).Covered z :=
          ⟨hr.1, hr.2.1, List.forall_mem_cons.2 ⟨hright, hr.2.2.1⟩, hr.2.2.2⟩
        exact hcovered.spans hleft
      refine (answers_fetchInternal hs.around.1).bind_spends
        ((answers_addRightHalf hs).bind_spends ?_)
      rw [show ((Route.fork page ls left ((k, right) :: rs)).internal v.keyType above.parent).size =
        (Route.fork page ls left ((k, right) :: rs)).size from Shape.size_internal _]
      split_ifs with hfits
      · exact (costs_putInternal hspans.page).spends.of_le (by omega)
      · have hfull := hs.size_eq hfits
        have hlen : ((Route.fork page ls left ((k, right) :: rs)).internal v.keyType
            above.parent).children.length = 7 := (Shape.size_internal _).trans hfull
        refine ((yields_splitInternalPage hpending hfull).bind_spends
          (costs_splitInternalPage hspans.page hspans.kids) (n := 7 * above.length + 5) ?_).of_le ?_
        · rintro split v' ⟨-, -, left', k', right', rfl, hs', -⟩ ⟨hleft', hright'⟩
          have hleft' : left'.page = (Route.fork page ls left ((k, right) :: rs)).page := hleft'
          exact spends_of_valid fun hv' => ih hs' (Nat.lt_of_succ_lt_succ hsteps) hr.2.2.2
            (.inl (hleft' ▸ hspans.page)) (.inl hright') hv'
        · rw [hlen, show Internal.splitPosition = 3 from rfl, Route.length]
          omega

/-- A leaf with one more entry is written, or split if it is too large. -/
theorem spends_writeGrown {r : Route H 0} {w s : Shape 0} (hw : v.Shaped (r.plug w))
    (hs : v.Pending r s) (hsize : s.size = w.size + 1) (hr : r.Covered z) (hpage : z.Holds s.page)
    (hroot : ∀ p : PageId, z.fresh ≤ p.number.toNat → z.root p) :
    Spends z (if (s.leaf v.keyType r.parent).size ≤ maxLeafKeys then
        putLeaf (s.leaf v.keyType r.parent)
      else do
        let steps := (← get).stepLimit
        attachSplit steps (← splitLeafPage (s.leaf v.keyType r.parent))) v (7 * r.length + 8) := by
  refine spends_of_valid fun hv => ?_
  obtain ⟨⟨-, hmost⟩, -⟩ := (Route.occupied_plug.1 hw.occupied).2
  rw [s.size_leaf]
  split_ifs with hfits
  · exact (costs_putLeaf hpage).spends.of_le (by omega)
  · refine spends_get_bind fun t ht => ?_
    rw [ht.stepLimit_eq]
    have hfull : s.size = maxLeafKeys + 1 := by
      have : Shape.most 0 = maxLeafKeys := rfl
      omega
    have hlt := hw.length_lt hv
    refine ((yields_splitLeafPage hs hfull).bind_spends (costs_splitLeafPage hpage)
      (n := 7 * r.length + 5) ?_).of_le (by omega)
    rintro split v' ⟨-, -, left, k, right, rfl, hsplit, -⟩ ⟨hleft, hright⟩
    have hleft : left.page = s.page := hleft
    exact spends_attachSplit hsplit (by omega) hr (.inl (hleft ▸ hpage)) (.inl hright) hroot

/-! ### Deletion -/

/-- The parent that a merge has left is mended in the zone if any such node is. -/
theorem spends_mendHanded {v' : View} {above : Route H (h + 1)} {parent : Internal}
    {old : Shape (h + 1)} {steps : Nat} (hold : z.Spans old)
    (hroot : ∀ p ∈ (above.plug old).kidPages, z.root p)
    (hmend : ∀ {s : Shape (h + 1)}, v'.Pending above s →
      Shape.least above.isTop (h + 1) ≤ s.size + 1 ∧ s.size ≤ Shape.most (h + 1) → z.Spans s →
      (∀ p ∈ (above.plug s).kidPages, z.root p) →
      Spends z (mendInternal steps (s.internal v'.keyType above.parent)) v' n)
    (hv : v.Handed v' above parent old) : Spends z (mendInternal steps parent) v' n := by
  obtain ⟨hkeep, -, s, rfl, hs, hsize, hpage, hkids, -⟩ := hv
  rw [← hkeep.keyType]
  exact hmend hs hsize ⟨hpage ▸ hold.page, fun p hp => hold.kids p (hkids hp)⟩ fun p hp =>
    hroot p (Route.kidPages_plug_subset hpage hkids hp)

/-- A node on the way of a change has no more children than it should. -/
theorem length_children_le {page : PageId} {left : List (Shape h × Field)} {s : Shape h}
    {right : List (Field × Shape h)} {above : Route H (h + 1)}
    (hs : v.Pending (.down page left right above) s) (parent : Option PageId) :
    ((Route.fork page left s right).internal v.keyType parent).children.length ≤ maxChildren := by
  refine ((Shape.size_internal _).trans Route.size_fork).le.trans ?_
  exact hs.around_occupied.1.2

/-- Reading the parent of a node in memory and its siblings writes nothing. -/
theorem spends_family {α : Type} (f : Shape h → α) {page : PageId} {left : List (Shape h × Field)}
    {s : Shape h} {right : List (Field × Shape h)} {above : Route H (h + 1)}
    {read : PageId → TreeAction α} {next : Internal → Option α × Option α → TreeAction Unit}
    (hs : v.Pending (.down page left right above) s)
    (hread : ∀ c : Shape h, c.Stored v.node v.keyType (some page) →
      Answers (read c.page) v (.ok (f c)))
    (hnext : Spends z (next ((Route.fork page left s right).internal v.keyType above.parent)
      (left.head?.map fun e => f e.1, right.head?.map fun e => f e.2)) v n) :
    Spends z (fetchInternal page >>= fun parent =>
      Action.ofExcept (parent.indexOfChild s.page) >>= fun slot =>
        siblings read parent slot >>= next parent) v n := by
  obtain ⟨hparent, hleft, hright, -⟩ := hs.around
  refine (answers_fetchInternal hparent).bind_spends ?_
  refine (answers_ofExcept (indexOfChild_of_pending hs)).bind_spends ?_
  exact (answers_siblings (fun e he => hread _ (hleft e he))
    fun e he => hread _ (hright e he)).bind_spends hnext

/-- Mending an internal node with too few children, if the walk from there on stays in the zone. -/
theorem spends_mendSmall {steps : Nat} {page : PageId} {left : List (Shape (h + 1) × Field)}
    {s : Shape (h + 1)} {right : List (Field × Shape (h + 1))} {above : Route H (h + 2)}
    (hs : v.Pending (.down page left right above) s) (hv : v.Valid)
    (hsize : s.size < minChildren ∧ minChildren ≤ s.size + 1)
    (hold : z.Spans (Route.fork page left s right))
    (hflank : (Route.down page left right above).Flanked z) (hspans : z.Spans s)
    (hnext : ∀ parent v', v.Handed v' above parent (Route.fork page left s right) →
      Spends z (mendInternal steps parent) v' (6 * above.length + 3)) :
    Spends z (mendInternal (steps + 1) (s.internal v.keyType (some page))) v
      (6 * (above.length + 1) + 3) := by
  have hchildren := length_children_le hs above.parent
  have hkids : ∀ c : Shape (h + 1), (c.internal v.keyType (some page)).children.length = c.size :=
    fun c => c.size_internal
  have hmin : minChildren = 3 := rfl
  have hmost : Shape.most (h + 1) = 6 := rfl
  obtain ⟨remedy, hchoice, hremedy⟩ := exists_remedy
    (fun c : Shape (h + 1) => c.internal v.keyType (some page)) (fun c => c.size_internal) hs hv
    hsize.1
  have hchoice : Remedy.choose Internal.size minChildren maxChildren _ _ _ = _ := hchoice
  show Spends z (if minChildren ≤ (s.internal v.keyType (some page)).size then _ else _) v _
  rw [s.size_internal, if_neg (Nat.not_le.2 hsize.1)]
  refine spends_family _ hs (fun c hc => answers_fetchInternal hc.1) ?_
  simp only [hchoice]
  cases hremedy with
  | @mergeRight left k b right hb hle =>
    have hside : z.Spans b := hflank.2.1 (k, b) rfl
    refine ((yields_mergeInternalPages hb hle).bind_spends
      (costs_mergeInternalPages hchildren hspans.page hside.page hside.kids)
      fun parent v' hv' _ => hnext parent v' hv').of_le ?_
    -- the right sibling has no more than four children
    rw [hkids b]
    omega
  | @mergeLeft a k left right ha hle =>
    have hside : z.Spans a := hflank.1 (a, k) rfl
    refine ((yields_mergeInternalPages ha hle).bind_spends
      (costs_mergeInternalPages hchildren hside.page hspans.page hspans.kids)
      fun parent v' hv' _ => hnext parent v' hv').of_le ?_
    rw [hkids s]
    omega
  | @borrowRight left k b right hb hlt =>
    have hside : z.Spans b := hflank.2.1 (k, b) rfl
    exact (costs_takeFromRightInternal hold.page hspans.page hside.page
      hside.kids).spends.of_le (by omega)
  | @borrowLeft a k left right ha hlt =>
    have hside : z.Spans a := hflank.1 (a, k) rfl
    exact (costs_takeFromLeftInternal hold.page hside.page hspans.page
      hside.kids).spends.of_le (by omega)

theorem spends_mendInternal {steps : Nat} {r : Route H (h + 1)} {s : Shape (h + 1)}
    (hs : v.Pending r s) (hsteps : r.length < steps)
    (hsize : Shape.least r.isTop (h + 1) ≤ s.size + 1 ∧ s.size ≤ Shape.most (h + 1))
    (hr : r.Covered z) (hflank : r.Flanked z) (hspans : z.Spans s)
    (hroot : ∀ p ∈ (r.plug s).kidPages, z.root p) :
    Spends z (mendInternal steps (s.internal v.keyType r.parent)) v (6 * r.length + 3) := by
  refine spends_of_valid fun hv => ?_
  -- one step for each node on the way up
  induction steps generalizing v h with
  | zero => exact absurd hsteps (Nat.not_lt_zero _)
  | succ steps ih =>
    cases r with
    | top =>
      exact (costs_lowerRoot hspans.page fun c hc => ⟨hspans.kids c hc, hroot c hc⟩).spends
    | down page left right above =>
      have hold : z.Spans (Route.fork page left s right) := hr.spans (.inl hspans.page)
      by_cases hfits : minChildren ≤ s.size
      · show Spends z (if minChildren ≤ (s.internal v.keyType (some page)).size then _ else _) v _
        rw [s.size_internal, if_pos hfits]
        exact (costs_putInternal hspans.page).spends.of_le (by omega)
      · refine spends_mendSmall hs hv ⟨Nat.lt_of_not_le hfits, hsize.1⟩ hold hflank hspans
          fun parent v' => spends_mendHanded hold hroot fun hs' hsize' hspans' hroot' => ?_
        exact spends_of_valid fun hv' =>
          ih hs' (Nat.lt_of_succ_lt_succ hsteps) hsize' hr.2.2.2 hflank.2.2 hspans' hroot' hv'

theorem spends_mendLeaf {steps : Nat} {page : PageId} {left : List (Shape 0 × Field)} {s : Shape 0}
    {right : List (Field × Shape 0)} {above : Route H 1}
    (hs : v.Pending (.down page left right above) s) (hsteps : above.length < steps)
    (hsize : s.size < minLeafKeys ∧ minLeafKeys ≤ s.size + 1)
    (hr : (Route.down page left right above).Covered z)
    (hflank : (Route.down page left right above).Flanked z) (hpage : z.Holds s.page)
    (hroot : ∀ p ∈ (Route.plug (.down page left right above) s).kidPages, z.root p) :
    Spends z (mendLeaf steps page (s.leaf v.keyType (some page))) v (6 * above.length + 5) := by
  refine spends_of_valid fun hv => ?_
  have hold : z.Spans (Route.fork page left s right) := hr.spans (.inl hpage)
  have hchildren := length_children_le hs above.parent
  have hnext : ∀ parent v',
      v.Handed v' above parent (Route.fork page left s right) →
        Spends z (mendInternal steps parent) v' (6 * above.length + 3) :=
    fun parent v' => spends_mendHanded hold hroot fun hs' hsize' =>
      spends_mendInternal hs' hsteps hsize' hr.2.2.2 hflank.2.2
  obtain ⟨remedy, hchoice, hremedy⟩ := exists_remedy
    (fun c : Shape 0 => c.leaf v.keyType (some page)) (fun c => c.size_leaf) hs hv hsize.1
  have hchoice : Remedy.choose Leaf.size minLeafKeys maxLeafKeys _ _ _ = _ := hchoice
  refine spends_family (fun c : Shape 0 => c.leaf v.keyType (some page)) hs
    (fun c hc => answers_fetchLeaf hc.1) ?_
  simp only [hchoice]
  cases hremedy with
  | @mergeRight left k b right hb hle =>
    have hside : z.Spans b := hflank.2.1 (k, b) rfl
    exact ((yields_mergeLeafPages hb hle).bind_spends
      (costs_mergeLeafPages hchildren hpage hside.page)
      fun parent v' hv' _ => hnext parent v' hv').of_le (by omega)
  | @mergeLeft a k left right ha hle =>
    have hside : z.Spans a := hflank.1 (a, k) rfl
    exact ((yields_mergeLeafPages ha hle).bind_spends
      (costs_mergeLeafPages hchildren hside.page hpage)
      fun parent v' hv' _ => hnext parent v' hv').of_le (by omega)
  | @borrowRight left k b right hb hlt =>
    have hside : z.Spans b := hflank.2.1 (k, b) rfl
    exact (costs_takeFromRightLeaf hold.page hpage hside.page).spends.of_le (by omega)
  | @borrowLeft a k left right ha hlt =>
    have hside : z.Spans a := hflank.1 (a, k) rfl
    exact (costs_takeFromLeftLeaf hold.page hside.page hpage).spends.of_le (by omega)

/-- A leaf with one entry less is written, or mended if it is too small. -/
theorem spends_writeShrunk {r : Route H 0} {w s : Shape 0} (hw : v.Shaped (r.plug w))
    (hs : v.Pending r s) (hsize : s.size + 1 = w.size) (hr : r.Covered z) (hflank : r.Flanked z)
    (hpage : z.Holds s.page) (hroot : ∀ p ∈ (r.plug s).kidPages, z.root p) :
    Spends z (match (s.leaf v.keyType r.parent).parent with
      | none => putLeaf (s.leaf v.keyType r.parent)
      | some p =>
        if minLeafKeys ≤ (s.leaf v.keyType r.parent).size then
          putLeaf (s.leaf v.keyType r.parent)
        else do
          mendLeaf (← get).stepLimit p (s.leaf v.keyType r.parent)) v
      (max 1 (6 * r.length - 1)) := by
  refine spends_of_valid fun hv => ?_
  have hput : Spends z (putLeaf (s.leaf v.keyType r.parent)) v (max 1 (6 * r.length - 1)) :=
    (costs_putLeaf hpage).spends.of_le (Nat.le_max_left ..)
  cases r with
  | top => exact hput
  | down page left right above =>
    show Spends z (if minLeafKeys ≤ (s.leaf v.keyType (some page)).size then
      putLeaf (s.leaf v.keyType (some page)) else _) v _
    rw [s.size_leaf]
    split_ifs with henough
    · exact hput
    · refine spends_get_bind fun t ht => ?_
      have hlt := hw.length_lt hv
      have hlow : Shape.least false 0 ≤ w.size := (Route.occupied_plug.1 hw.occupied).2.1.1
      rw [ht.stepLimit_eq]
      simp only [Route.length] at hlt ⊢
      exact (spends_mendLeaf hs (by omega) ⟨Nat.lt_of_not_le henough, by rw [hsize]; exact hlow⟩ hr
        hflank hpage hroot).of_le (by omega)

end Tree

/-! ### Whole changes -/

/-- The most slots that a change of a tree of this height writes. -/
def Change.cost (H : Nat) : Change → Nat
  | insert _ => 7 * H + 9
  | update _ => 1
  | delete _ => max 2 (6 * H)

/-- The way of the key and its leaf are in the zone. -/
def Tree.Zone.Tracks (z : Zone) (v : View) {H : Nat} (s : Shape H) (key : Field) : Prop :=
  ∀ (way : Route H 0) (w : Shape 0), way.plug w = s →
    way.Follows (fun n => Keys.firstLarger key n.keys) v.keyType w → way.Covered z ∧ z.Holds w.page

/-- The zone has room for a change of a tree that shows `v` and has the shape `s`. -/
def Tree.Zone.Admits (z : Zone) (v : View) {H : Nat} (s : Shape H) : Change → Prop
  | .insert r => z.records ∧ z.Tracks v s r.key ∧ ∀ p : PageId, z.fresh ≤ p.number.toNat → z.root p
  | .update _ => z.records
  | .delete key => z.records ∧ z.Tracks v s key ∧ (∀ p ∈ s.kidPages, z.root p) ∧
    ∀ (way : Route H 0) (w : Shape 0), way.plug w = s →
      way.Follows (fun n => Keys.firstLarger key n.keys) v.keyType w → way.Flanked z

/-- Where every page may be written over, nodes and ways are too. -/
theorem Tree.Zone.Unbounded.spans {z : Zone} (hz : z.Unbounded) {h : Nat} (s : Shape h) :
    z.Spans s :=
  ⟨hz.holds _, fun p _ => hz.links p⟩

theorem Tree.Zone.Unbounded.covered {z : Zone} (hz : z.Unbounded) {H h : Nat} (r : Route H h) :
    r.Covered z := by
  induction r with
  | top => exact trivial
  | down page left right above ih =>
    exact ⟨hz.holds page, fun e _ => hz.links _, fun e _ => hz.links _, ih⟩

theorem Tree.Zone.Unbounded.flanked {z : Zone} (hz : z.Unbounded) {H h : Nat} (r : Route H h) :
    r.Flanked z := by
  induction r with
  | top => exact trivial
  | down page left right above ih => exact ⟨fun e _ => hz.spans e.1, fun e _ => hz.spans e.2, ih⟩

/-- Both files have room for every change. -/
theorem Tree.Zone.admits_all (v : View) {H : Nat} (s : Shape H) (c : Change) :
    Zone.all.Admits v s c := by
  have htracks : ∀ key, Zone.all.Tracks v s key := fun key way w _ _ =>
    ⟨unbounded_all.covered way, unbounded_all.holds _⟩
  cases c with
  | insert r => exact ⟨trivial, htracks r.key, fun p _ => unbounded_all.root p⟩
  | update r => exact trivial
  | delete key =>
    exact ⟨trivial, htracks key, fun p _ => unbounded_all.root p,
      fun way _ _ _ => unbounded_all.flanked way⟩

namespace Tree

variable {z : Zone} {v : View} {H : Nat} {s : Shape H}

theorem spends_addRecord (hs : v.HasShape s)
    (hle : ∀ n, v.recordSize = some n → n ≤ RecordFile.maxRecordSize) {r : Record}
    (htype : r.key.type = v.keyType) (hr : r.validate = .ok ())
    (hsize : ∀ n, v.recordSize = some n → n = r.size) (hz : z.Admits v s (.insert r)) :
    Spends z (addRecord r) v (7 * H + 9) := by
  refine spends_of_valid fun hv => ?_
  have hshaped := hs.shaped hv
  by_cases hkey : r.key ∈ s.entries.map Prod.fst
  · exact (refuses_addRecord hshaped hv hkey).spends.of_le (Nat.zero_le _)
  by_cases hlarge : v.recordSize = none ∧ RecordFile.maxRecordSize < r.size
  · exact (refuses_addLarge hshaped hv hkey hr hlarge.1 hlarge.2).spends.of_le (Nat.zero_le _)
  have hfits : r.size ≤ RecordFile.maxRecordSize := by
    cases hn : v.recordSize with
    | none => exact Nat.le_of_not_lt fun hlt => hlarge ⟨hn, hlt⟩
    | some n => exact hsize n hn ▸ hle n hn
  obtain ⟨hrecords, htracks, hroot⟩ := hz
  obtain ⟨way, w, rfl, hway, hleaf⟩ := answers_findLeaf hshaped hv r.key
  obtain ⟨hcovered, hw⟩ := htracks way w rfl hway
  have hlength := way.length_add
  refine hleaf.bind_spends ?_
  rw [if_neg fun h => hkey ((hway.isSome_indexOf?_iff hshaped.ascending).1 h)]
  refine ((yields_storeRecord hr hsize hfits).bind_spends (n := 7 * H + 8)
    (costs_of_whole (fun _ ht => whole_addRecord ht r) (.addRecord hrecords hr)) ?_).of_le (by omega)
  rintro id v' ⟨rfl, -, rfl⟩ -
  refine spends_of_valid fun hv' => ?_
  obtain ⟨s, hinsert, hpending, hpage, hsize', -, -⟩ :=
    exists_grown hshaped hway hkey htype hr hv'
  simp only [hinsert, Action.ofChecked_ok, pure_bind]
  exact (spends_writeGrown (hshaped.addRecord r) hpending hsize' hcovered (hpage ▸ hw)
    hroot).of_le (by omega)

theorem spends_replaceRecord (hs : v.HasShape s) {r : Record} (hr : r.validate = .ok ())
    (hz : z.records) : Spends z (replaceRecord r) v 1 := by
  refine spends_of_valid fun hv => ?_
  obtain ⟨way, w, rfl, hway, hleaf⟩ := answers_findLeaf (hs.shaped hv) hv r.key
  refine hleaf.bind_spends ?_
  cases Keys.indexOf? r.key (w.leaf v.keyType way.parent).keys with
  | none => exact (answers_fail _).spends.of_le (Nat.zero_le 1)
  | some i =>
    refine Costs.spends (Q := fun _ => True) (F := fun _ => True) ?_
    refine (costs_ofChecked (fun _ _ => trivial) fun _ => trivial).read fun id (_ : True) => ?_
    exact (costs_of_whole (fun _ ht => whole_replaceRecord ht id r) (.replaceRecord hz hr)).mono
      (Nat.le_refl 1) (fun _ h => h) fun _ _ => trivial

theorem spends_removeKey (hs : v.HasShape s) {key : Field} (hz : z.Admits v s (.delete key)) :
    Spends z (removeKey key) v (max 2 (6 * H)) := by
  refine spends_of_valid fun hv => ?_
  have hshaped := hs.shaped hv
  by_cases hkey : key ∈ s.entries.map Prod.fst
  · obtain ⟨⟨k, id⟩, he, rfl⟩ := List.mem_map.1 hkey
    obtain ⟨hrecords, htracks, hroot, hflanked⟩ := hz
    obtain ⟨way, w, rfl, hway, hleaf⟩ := answers_findLeaf hshaped hv k
    obtain ⟨hcovered, hw⟩ := htracks way w rfl hway
    have hflanked := hflanked way w rfl hway
    have hlength := way.length_add
    obtain ⟨r, hr, -⟩ := hs.resolved _ he
    obtain ⟨i, s, hindex, hremove, hpending, hpage, hsize, -⟩ := exists_shrunk hshaped hway he hv
    have hkids : s.kidPages ⊆ w.kidPages := List.Subset.refl _
    refine hleaf.bind_spends ?_
    simp only [hindex, hremove, Action.ofChecked_ok, pure_bind]
    refine (((turns_eraseRecord (hv.record_lt hr)).yields (Q := fun _ v' => v' = v.setRecord id none)
      (E := fun _ => False) rfl).bind_spends (n := max 1 (6 * way.length - 1))
      (costs_of_whole (fun _ ht => whole_eraseRecord ht id) (.eraseRecord hrecords))
      ?_).of_le (by omega)
    rintro - v' rfl -
    exact spends_writeShrunk (hshaped.setRecord id none) hpending hsize hcovered hflanked (hpage ▸ hw)
      fun p hp => hroot p (Route.kidPages_plug_subset hpage hkids hp)
  · exact (refuses_removeKey hshaped hv hkey).spends.of_le (Nat.zero_le _)

end Tree

namespace Change

variable {z : Tree.Zone} {t : Tree} {H : Nat} {s : Shape H}

theorem spends_make (hstep : t.InStep) (hs : t.view.HasShape s) {c : Change} (hc : ¬ c.Refused t)
    (hz : z.Admits t.view s c) : Tree.Spends z c.make t.view (c.cost H) := by
  cases c with
  | insert r =>
    exact Tree.spends_addRecord hs (fun _ hn => hstep.recordSize_le hn)
      (by_contra fun htype => hc (.inl htype)) (by_contra fun hr => hc (.inr (.inl hr)))
      (fun _ hn => size_eq_of_not_refused hc hn) hz
  | update r => exact Tree.spends_replaceRecord hs (by_contra fun hr => hc (.inr (.inl hr))) hz
  | delete key => exact Tree.spends_removeKey hs hz

/-- Where a change of a well-formed tree writes, and how much. It may mark the tree besides. -/
theorem exists_writesIn (hstep : t.InStep) (hs : t.view.HasShape s) {c : Change}
    (hz : z.Admits t.view s c) (hfresh : z.fresh ≤ t.pageCount.toNat) :
    ∃ k ≤ c.cost H, ∃ u needsRepair, Tree.WritesIn z k t u ∧
      finalState (c.run t) = { u with needsRepair } := by
  rcases c.finalState_run_cases t with heq | ⟨hnot, b, heq⟩
  · exact ⟨0, Nat.zero_le _, t, t.needsRepair, .refl t, heq⟩
  · obtain ⟨k, hk, hw⟩ := spends_make hstep hs hnot hz t ⟨hstep, rfl⟩ hfresh
    exact ⟨k, hk, _, b, hw, heq⟩

/-- How much a change of a well-formed tree writes in both files. -/
theorem exists_writes_le (hstep : t.InStep) (hs : t.view.HasShape s) (c : Change) :
    ∃ k ≤ c.cost H, ∃ u needsRepair, Tree.Writes k t u ∧
      finalState (c.run t) = { u with needsRepair } :=
  exists_writesIn hstep hs (Tree.Zone.admits_all _ s c) (Nat.zero_le _)

end Change
end RecordIndex
