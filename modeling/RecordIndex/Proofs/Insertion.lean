import Mathlib.Data.List.Nodup
import Mathlib.Data.Prod.Lex
import RecordIndex.Proofs.Descent
import RecordIndex.Proofs.Levels
import RecordIndex.Proofs.Pending
import RecordIndex.Proofs.RecordEffects
import RecordIndex.Proofs.Settling
import RecordIndex.Tree.Insertion

/-!
# Inserting keeps a tree well-formed

A split leaves the tree well-formed at every moment: until the parent has been written the tree has
only the left half, and the right half stands aside (`View.SplitAt`). So it stays even if the file
system fails on the way, when entries are lost but no rule is broken.

* `View.Halves`: what the halves of a node are before they are written, and `View.Halves.splitAt` what
  the tree is then.
* `Tree.yields_splitInternalPage` and `Tree.yields_splitLeafPage`: a node that is too large is
  split.
* `Tree.yields_attachSplit`: the right half finds its place next to the left one, on whatever level
  the splitting ends.
* `Tree.yields_addRecord`: a new entry takes its place among the others.
-/

namespace RecordIndex

namespace Tree

variable {v : View} {H h : Nat}

/-- The next page, unless the file is too long. -/
theorem yields_nextPage (v : View) :
    Yields newPage v (fun p v' => p.number.toNat = v.pageCount ∧ v' = v.grow)
      (fun v' => v' = v ∧ v.Full) :=
  yields_newPage.mono (fun _ _ hp => hp.2) fun _ hv => ⟨hv.1, .inl hv.2⟩

/-- The page that has come is there to be written. -/
theorem hasPage_next {p q : PageId} (hq : v.HasPage q) (hp : p.number.toNat = v.pageCount) :
    v.grow.HasPage p := by
  refine ⟨?_, hp ▸ Nat.lt_succ_self _⟩
  rintro rfl
  have hlt := hq.2
  rw [← hp] at hlt
  exact absurd hlt (Nat.not_lt_zero _)

/-- The view with two nodes written side by side, the right one on the next page, and the children
of the right one linked to it. -/
def deal (v : View) (left right : Shape (h + 1)) (parent : Option PageId) : View :=
  ((v.grow.put (left.node v.keyType parent)).put (right.node v.keyType parent)).relinkAll
    ((Fork.kids right).map Shape.page) (some right.page)

theorem keeps_deal (v : View) (left right : Shape (h + 1)) (parent : Option PageId) :
    v.Keeps (deal v left right parent) :=
  (View.keeps_grow v).trans ((View.keeps_put _ _).trans ((View.keeps_put _ _).trans
    (View.keeps_relinkAll _ _ _)))

/-- Each page shows what was written to it last. -/
theorem node_put_put (v : View) (left right : Shape h) (parent : Option PageId) (p : PageId) :
    ((v.grow.put (left.node v.keyType parent)).put (right.node v.keyType parent)).node p =
      if p = right.page then some (right.node v.keyType parent)
      else if p = left.page then some (left.node v.keyType parent) else v.node p := by
  simp only [View.node_put, View.node_grow, Shape.page_node]

theorem node_deal (v : View) (left right : Shape (h + 1)) (parent : Option PageId) (p : PageId) :
    (deal v left right parent).node p =
      if p ∈ (Fork.kids right).map Shape.page then
        (if p = right.page then some (right.node v.keyType parent)
          else if p = left.page then some (left.node v.keyType parent) else v.node p).map
            (Node.withParent (some right.page))
      else if p = right.page then some (right.node v.keyType parent)
      else if p = left.page then some (left.node v.keyType parent) else v.node p := by
  simp only [deal, View.node_relinkAll, node_put_put]

section Deal

variable {r : Route H (h + 1)} {s : Shape (h + 1)} (left right : Shape (h + 1))
  (parent : Option PageId)

/-- The pages below a node are not written when its children are dealt out, but to link them. -/
theorem ne_of_mem_pagesBelow (hs : v.Pending r s) (hv : v.Valid) (hpage : left.page = s.page)
    (hnew : right.page.number.toNat = v.pageCount) {p : PageId} (hp : p ∈ s.pagesBelow) :
    p ≠ left.page ∧ p ≠ right.page := by
  refine ⟨?_, (hs.below.hasPage hv hp).ne_next hnew⟩
  rintro rfl
  exact Shape.page_not_mem_pagesBelow hs.nodup_pages (hpage ▸ hp)

theorem node_deal_of_not_mem (hnew : right.page.number.toNat = v.pageCount) {p : PageId}
    (hp : v.HasPage p) (hne : p ≠ left.page) (hmem : p ∉ (Fork.kids right).map Shape.page) :
    (deal v left right parent).node p = v.node p := by
  rw [node_deal, if_neg hmem, if_neg (hp.ne_next hnew), if_neg hne]

/-- Dealing out the children of a node in memory puts two nodes on their pages, and changes no page
outside. -/
theorem stored_deal (hs : v.Pending r s) (hv : v.Valid) (hpage : left.page = s.page)
    (hkids : Fork.kids s = Fork.kids left ++ Fork.kids right)
    (hnew : right.page.number.toNat = v.pageCount) :
    left.Stored (deal v left right parent).node v.keyType parent ∧
      right.Stored (deal v left right parent).node v.keyType parent ∧
        ∀ p, v.HasPage p → p ∉ s.pages → (deal v left right parent).node p = v.node p := by
  have hbelow : s.pagesBelow = left.pagesBelow ++ right.pagesBelow :=
    Shape.pagesBelow_eq_append hkids
  have hsub : ∀ p ∈ right.pagesBelow, p ∈ s.pagesBelow := fun p hp =>
    hbelow ▸ List.mem_append_right _ hp
  have hroots : ∀ p ∈ (Fork.kids right).map Shape.page, p ∈ right.pagesBelow := by
    intro p hp
    obtain ⟨c, hc, rfl⟩ := List.mem_map.1 hp
    exact Shape.page_mem_pagesBelow hc
  obtain ⟨-, hright, hdisjoint⟩ : left.pagesBelow.Nodup ∧ right.pagesBelow.Nodup ∧ _ :=
    List.nodup_append.1 (hbelow ▸ Shape.nodup_pagesBelow hs.nodup_pages)
  have hkidsRight : ∀ c ∈ Fork.kids right, c.Stored v.node v.keyType (some s.page) := fun c hc =>
    Shape.below_succ.1 hs.below c (hkids ▸ List.mem_append_right _ hc)
  have hkidsLeft : left.Below v.node v.keyType := fun c hc => by
    rw [show Fork.page left = Fork.page s from hpage]
    exact hs.below c (hkids ▸ List.mem_append_left _ hc)
  have hne : left.page ≠ right.page := hpage ▸ hs.hasPage.ne_next hnew
  -- a page that is written is none of those below
  have hfree : ∀ p ∈ right.pagesBelow, p ≠ left.page ∧ p ≠ right.page := fun p hp =>
    ne_of_mem_pagesBelow left right hs hv hpage hnew (hsub p hp)
  have hsame := fun p => node_deal_of_not_mem left right parent hnew (p := p)
  refine ⟨⟨?_, hkidsLeft.congr fun p hp => ?_⟩, ⟨?_, ?_⟩, fun p hp hmem => ?_⟩
  · rw [node_deal, if_neg fun hp => (hfree _ (hroots _ hp)).1 rfl, if_neg hne, if_pos rfl]
  · have hp' : p ∈ s.pagesBelow := hbelow ▸ List.mem_append_left _ hp
    refine hsame p (hs.below.hasPage hv hp')
      (ne_of_mem_pagesBelow left right hs hv hpage hnew hp').1 fun hmem => ?_
    exact hdisjoint p hp p (hroots p hmem) rfl
  · rw [node_deal, if_neg fun hp => (hfree _ (hroots _ hp)).2 rfl, if_pos rfl]
  · refine Shape.below_succ.2 (Shape.stored_relinked hright hkidsRight (fun c hc => ?_)
      fun c hc p hp hmem => ?_)
    · have hc' := hfree _ (Shape.page_mem_pagesBelow hc)
      rw [node_deal, if_pos (List.mem_map_of_mem hc), if_neg hc'.2, if_neg hc'.1]
      rfl
    · have hp : p ∈ right.pagesBelow := Shape.mem_pagesBelow_of_mem_kids hc hp
      exact hsame p (hs.below.hasPage hv (hsub p hp)) (hfree p hp).1 hmem
  · rw [Shape.pages_eq, List.mem_cons, not_or] at hmem
    exact hsame p hp (hpage ▸ hmem.1) fun hp => hmem.2 (hsub p (hroots p hp))

end Deal

end Tree

/-! ### Nodes that have been split -/

namespace Route

variable {H h : Nat}

/-- What stands from left to right when what is in a place has been split. -/
def splitLine (r : Route H h) (left : Shape h) (separator : Field) (right : Shape h) : List Mark :=
  r.before ++ (left.line ++ .separator separator :: right.line) ++ r.after

theorem mem_splitLine_of_left {r : Route H h} {left right : Shape h} {k : Field} {m : Mark}
    (hm : m ∈ left.line) : m ∈ r.splitLine left k right :=
  List.mem_append_left _ (List.mem_append_right _ (List.mem_append_left _ hm))

theorem mem_splitLine_of_right {r : Route H h} {left right : Shape h} {k : Field} {m : Mark}
    (hm : m ∈ right.line) : m ∈ r.splitLine left k right :=
  List.mem_append_left _ (List.mem_append_right _
    (List.mem_append_right _ (List.mem_cons_of_mem _ hm)))

theorem splitLine_down {page : PageId} {ls : List (Shape h × Field)} {rs : List (Field × Shape h)}
    {above : Route H (h + 1)} {left right : Shape h} {k : Field} :
    (down page ls rs above).splitLine left k right =
      above.before ++ (fork page ls left ((k, right) :: rs)).line ++ above.after := by
  rw [line_fork]
  simp [splitLine, before, after]

theorem sublist_splitLine (r : Route H h) (left : Shape h) (k : Field) (right : Shape h) :
    (r.plug left).line.Sublist (r.splitLine left k right) := by
  rw [line_plug]
  refine List.Sublist.append (List.Sublist.append (List.Sublist.refl _) ?_) (List.Sublist.refl _)
  exact List.sublist_append_left _ _

theorem splitLine_inner (r : Route H (h + 1)) (page new : PageId) (first c : Shape h) (k : Field)
    (xs ys : List (Field × Shape h)) :
    r.splitLine (Shape.inner page first xs) k (Shape.inner new c ys) =
      r.before ++ (Shape.inner page first (xs ++ (k, c) :: ys)).line ++ r.after := by
  rw [splitLine, Shape.line_inner_append page new]

theorem splitLine_top (left : Shape H) (k : Field) (right : Shape H) (new : PageId) :
    splitLine .top left k right = (Shape.inner new left [(k, right)]).line := by
  simp [splitLine, before, after]

/-- A separator that is put between two leaves adds no entry. -/
theorem filterMap_splitLine_twig (r : Route H 0) (page new : PageId)
    (xs ys : List (Field × RecordId)) (k : Field) :
    (r.splitLine (Shape.twig page xs) k (Shape.twig new ys)).filterMap Mark.entry? =
      (r.before ++ (Shape.twig page (xs ++ ys)).line ++ r.after).filterMap Mark.entry? := by
  simp [splitLine, List.filterMap_cons, Mark.entry?]

end Route

/-- What was in a place has been split. The left half is still in the place, and the right half
stands aside, as large as it should be and linked to the same parent. -/
structure View.SplitAt (v : View) {H h : Nat} (r : Route H h) (left : Shape h) (separator : Field)
    (right : Shape h) : Prop where
  root_eq : v.root = (r.plug left).page
  around : r.Stored v.node v.keyType left
  left_stored : left.Stored v.node v.keyType r.parent
  right_stored : right.Stored v.node v.keyType r.parent
  nodup : (r.pages ++ (left.pages ++ right.pages)).Nodup
  around_occupied : r.Occupied
  left_occupied : left.Occupied false
  right_occupied : right.Occupied false
  ascending : Shape.Ascending (r.splitLine left separator right)
  keys_ok : ∀ m ∈ r.splitLine left separator right, v.KeyOk m.key

namespace View.SplitAt

variable {v : View} {H h : Nat} {r : Route H h} {left right : Shape h} {k : Field}

/-- With the left half alone, the tree is as it should be. -/
theorem shaped (hs : v.SplitAt r left k right) : v.Shaped (r.plug left) where
  root_eq := hs.root_eq
  stored := Route.stored_plug.2 ⟨hs.around, hs.left_stored⟩
  nodup := by
    rw [(Route.pages_plug r left).nodup_iff]
    refine hs.nodup.sublist (List.Sublist.append_left ?_ _)
    exact List.sublist_append_left _ _
  ascending := hs.ascending.sublist (r.sublist_splitLine left k right)
  occupied := Route.occupied_plug.2 ⟨hs.around_occupied, hs.left_occupied.of_not_root _⟩
  keys_ok m hm := hs.keys_ok m ((r.sublist_splitLine left k right).subset hm)

theorem exists_node (hs : v.SplitAt r left k right) {p : PageId}
    (hp : p ∈ r.pages ++ (left.pages ++ right.pages)) : ∃ n, v.node p = some n := by
  rcases List.mem_append.1 hp with hp | hp
  · exact hs.around.exists_node hp
  · rcases List.mem_append.1 hp with hp | hp
    · exact hs.left_stored.exists_node hp
    · exact hs.right_stored.exists_node hp

end View.SplitAt

/-- With the right half next to the left one, the parent waits to be written. -/
theorem View.SplitAt.pending {v : View} {H h : Nat} {page : PageId} {ls : List (Shape h × Field)}
    {rs : List (Field × Shape h)} {above : Route H (h + 1)} {left right : Shape h} {k : Field}
    (hs : v.SplitAt (.down page ls rs above) left k right) (hv : v.Valid) :
    v.Pending above (Route.fork page ls left ((k, right) :: rs)) where
  root_eq := by
    rw [hs.root_eq, Route.plug, Route.page_plug]
    rw [Route.page_fork, Route.page_fork]
  around := hs.around.2.2.2.of_page_eq (by rw [Route.page_fork, Route.page_fork])
  below := Route.below_fork.2 ⟨hs.left_stored, hs.around.2.1, by
    simpa using ⟨hs.right_stored, fun k s => hs.around.2.2.1 (k, s)⟩⟩
  hasPage := by
    rw [Route.page_fork]
    exact hv.hasPage hs.around.1
  nodup := by
    refine List.Perm.nodup ?_ hs.nodup
    refine List.perm_iff_count.2 fun p => ?_
    have hfork := (@Route.pages_fork _ page ls left ((k, right) :: rs)).count_eq p
    simp only [Route.pages, List.count_append, List.count_cons, List.flatMap_cons] at hfork ⊢
    omega
  around_occupied := hs.around_occupied.2.2.2
  filled := Route.filled_fork.2 ⟨hs.left_occupied, hs.around_occupied.2.1, by
    simpa using ⟨hs.right_occupied, fun k s => hs.around_occupied.2.2.1 (k, s)⟩⟩
  ascending := by
    rw [← Route.splitLine_down]
    exact hs.ascending
  keys_ok := by
    rw [← Route.splitLine_down]
    exact hs.keys_ok

/-- A parent that has no room for the right half has one child too many with it. -/
theorem View.SplitAt.size_eq {v : View} {H h : Nat} {page : PageId} {ls : List (Shape h × Field)}
    {rs : List (Field × Shape h)} {above : Route H (h + 1)} {left right : Shape h} {k : Field}
    (hs : v.SplitAt (.down page ls rs above) left k right)
    (hfull : ¬ (Route.fork page ls left ((k, right) :: rs)).size ≤ maxChildren) :
    (Route.fork page ls left ((k, right) :: rs)).size = maxChildren + 1 := by
  have hgrown : (Route.fork page ls left ((k, right) :: rs)).size = ls.length + 1 + rs.length + 1 :=
    Route.size_fork
  have hmost : ls.length + 1 + rs.length ≤ maxChildren := hs.around_occupied.1.2
  omega

/-- The halves of the node `s` in memory. The left one is for the page of `s`, the pages below are
dealt out, both are as large as they should be, and they stand in order around the separator. -/
structure View.Halves (v : View) {H h : Nat} (r : Route H h) (s left : Shape h) (separator : Field)
    (right : Shape h) : Prop where
  page_eq : left.page = s.page
  pages_eq : s.pages = s.page :: (left.pagesBelow ++ right.pagesBelow)
  left_occupied : left.Occupied false
  right_occupied : right.Occupied false
  ascending : Shape.Ascending (r.splitLine left separator right)
  keys_ok : ∀ m ∈ r.splitLine left separator right, v.KeyOk m.key

namespace View.Halves

variable {v v' : View} {H h : Nat} {r : Route H h} {s left right : Shape h} {k : Field}

theorem encodable_left (hh : v.Halves r s left k right) (parent : Option PageId) :
    (left.node v.keyType parent).Encodable :=
  Shape.encodable_node (fun m hm => hh.keys_ok m (Route.mem_splitLine_of_left hm))
    hh.left_occupied.1.2

theorem encodable_right (hh : v.Halves r s left k right) (parent : Option PageId) :
    (right.node v.keyType parent).Encodable :=
  Shape.encodable_node (fun m hm => hh.keys_ok m (Route.mem_splitLine_of_right hm))
    hh.right_occupied.1.2

/-- When the halves are on their pages, the node has been split. -/
theorem splitAt (hh : v.Halves r s left k right) (hs : v.Pending r s) (hv : v.Valid)
    (hnew : right.page.number.toNat = v.pageCount) (hkeep : v.Keeps v') (hroot : v'.root = v.root)
    (hleft : left.Stored v'.node v.keyType r.parent)
    (hright : right.Stored v'.node v.keyType r.parent)
    (hsame : ∀ p, v.HasPage p → p ∉ s.pages → v'.node p = v.node p) :
    v'.SplitAt r left k right where
  root_eq := by rw [hroot, hs.root_eq, Route.page_plug hh.page_eq]
  around := by
    rw [hkeep.keyType]
    refine (hs.around.of_page_eq hh.page_eq).congr fun p hp => hsame p (hs.around.hasPage hv hp) ?_
    exact fun hmem => hs.ne_of_mem_around hp hmem rfl
  left_stored := by
    rw [hkeep.keyType]
    exact hleft
  right_stored := by
    rw [hkeep.keyType]
    exact hright
  nodup := by
    have hnodup := hs.nodup
    have hfresh := fun p => hs.hasPage_of_mem hv (p := p)
    rw [hh.pages_eq] at hnodup hfresh
    have hperm : (r.pages ++ (left.pages ++ right.pages)).Perm
        (right.page :: (r.pages ++ s.page :: (left.pagesBelow ++ right.pagesBelow))) := by
      have hmiddle := @List.perm_middle _ right.page (r.pages ++ s.page :: left.pagesBelow)
        right.pagesBelow
      rw [Shape.pages_eq left, Shape.pages_eq right, hh.page_eq]
      simpa using hmiddle
    rw [hperm.nodup_iff, List.nodup_cons]
    exact ⟨fun hmem => (hfresh _ hmem).ne_next hnew rfl, hnodup⟩
  around_occupied := hs.around_occupied
  left_occupied := hh.left_occupied
  right_occupied := hh.right_occupied
  ascending := hh.ascending
  keys_ok m hm := hkeep.keyOk (hh.keys_ok m hm)

/-- A node that is split takes one page more. -/
theorem settles (hh : v.Halves r s left k right) (hnew : right.page.number.toNat = v.pageCount)
    (hcount : v'.pageCount = v.pageCount + 1)
    (hsame : ∀ p, v.HasPage p → p ∉ s.pages → v'.node p = v.node p) :
    v.Settles v' (r.pages ++ s.pages) (r.pages ++ (left.pages ++ right.pages)) := by
  refine settles_of_grown hcount hnew (fun p => ?_) fun p hp hmem =>
    hsame p hp fun hs => hmem (List.mem_append_right _ hs)
  rw [hh.pages_eq, Shape.pages_eq left, Shape.pages_eq right, hh.page_eq]
  simp only [List.mem_append, List.mem_cons]
  tauto

end View.Halves

namespace View.Pending

variable {v : View} {H h : Nat}

/-- The halves of an internal node with one child too many. -/
theorem halves_inner {r : Route H (h + 1)} {page : PageId} {first c : Shape h} {k : Field}
    {xs ys : List (Field × Shape h)}
    (hs : v.Pending r (Shape.inner page first (xs ++ (k, c) :: ys)))
    (hxs : xs.length + 1 = Internal.splitPosition) (hys : ys.length + 1 = minChildren + 1)
    (new : PageId) :
    v.Halves r (Shape.inner page first (xs ++ (k, c) :: ys)) (Shape.inner page first xs) k
      (Shape.inner new c ys) := by
  have hkids := Shape.kids_inner_append page new first c k xs ys
  refine ⟨rfl, Shape.pages_inner_append page first c k xs ys, ⟨?_, fun d hd => ?_⟩,
    ⟨?_, fun d hd => ?_⟩, ?_, ?_⟩
  · rw [Shape.size_inner, hxs]
    exact ⟨Nat.le_of_ble_eq_true rfl, Nat.le_of_ble_eq_true rfl⟩
  · exact hs.filled d (hkids ▸ List.mem_append_left _ hd)
  · rw [Shape.size_inner, hys]
    exact ⟨Nat.le_of_ble_eq_true rfl, Nat.le_of_ble_eq_true rfl⟩
  · exact hs.filled d (hkids ▸ List.mem_append_right _ hd)
  · rw [Route.splitLine_inner]
    exact hs.ascending
  · rw [Route.splitLine_inner]
    exact hs.keys_ok

/-- The halves of a leaf with one entry too many. The separator is the key of the first entry on the
right, and comes right in front of it. -/
theorem halves_twig {r : Route H 0} {page : PageId} {k : Field} {id : RecordId}
    {xs ys : List (Field × RecordId)} (hs : v.Pending r (Shape.twig page (xs ++ (k, id) :: ys)))
    (hxs : xs.length = Leaf.splitPosition) (hys : ys.length + 1 = minLeafKeys) (new : PageId) :
    v.Halves r (Shape.twig page (xs ++ (k, id) :: ys)) (Shape.twig page xs) k
      (Shape.twig new ((k, id) :: ys)) := by
  obtain ⟨xs', e, rfl⟩ : ∃ xs' e, xs = xs' ++ [e] := by
    rcases List.eq_nil_or_concat xs with rfl | ⟨xs', e, rfl⟩
    · cases hxs
    · exact ⟨xs', e, List.concat_eq_append⟩
  have hline : r.before ++ (Shape.twig page (xs' ++ [e] ++ (k, id) :: ys)).line ++ r.after =
      (r.before ++ xs'.map fun e => .entry e.1 e.2) ++ .entry e.1 e.2 :: .entry k id ::
        ((ys.map fun e => .entry e.1 e.2) ++ r.after) := by simp
  have hsplitLine : r.splitLine (Shape.twig page (xs' ++ [e])) k (Shape.twig new ((k, id) :: ys)) =
      (r.before ++ xs'.map fun e => .entry e.1 e.2) ++ .entry e.1 e.2 :: .separator k ::
        .entry k id :: ((ys.map fun e => .entry e.1 e.2) ++ r.after) := by simp [Route.splitLine]
  have hascending := hs.ascending
  have hkeys := hs.keys_ok
  rw [hline] at hascending hkeys
  refine ⟨rfl, rfl, ⟨?_, trivial⟩, ⟨?_, trivial⟩, ?_, fun m hm => ?_⟩
  · rw [Shape.size_twig, hxs]
    exact ⟨Nat.le_of_ble_eq_true rfl, Nat.le_of_ble_eq_true rfl⟩
  · rw [Shape.size_twig, List.length_cons, hys]
    exact ⟨Nat.le_of_ble_eq_true rfl, Nat.le_of_ble_eq_true rfl⟩
  · rw [hsplitLine]
    exact hascending.insert_separator
  · rw [hsplitLine] at hm
    by_cases hmk : m = .separator k
    · rw [hmk]
      exact hkeys (.entry k id) (by simp)
    · refine hkeys m ?_
      simpa [hmk] using hm

end View.Pending

/-- The parent takes the pages of both halves. -/
theorem Route.mem_pages_split {H h : Nat} {page : PageId} {ls : List (Shape h × Field)}
    {rs : List (Field × Shape h)} {above : Route H (h + 1)} {left right : Shape h} {k : Field}
    (p : PageId) : p ∈ Route.pages (.down page ls rs above) ++ (left.pages ++ right.pages) ↔
      p ∈ above.pages ++ (Route.fork page ls left ((k, right) :: rs)).pages := by
  have hfork := (@Route.pages_fork _ page ls left ((k, right) :: rs)).mem_iff (a := p)
  simp only [Route.pages, List.mem_append, List.mem_cons, List.flatMap_cons] at hfork ⊢
  tauto

namespace Tree

variable {v : View} {H h : Nat}

/-- Any list that is long enough has an element with a given number of elements in front. -/
theorem exists_append_cons {α : Type} {l : List α} {n : Nat} (h : n < l.length) :
    ∃ xs a ys, l = xs ++ a :: ys ∧ xs.length = n := by
  refine ⟨l.take n, l[n], l.drop (n + 1), ?_, List.length_take_of_le (Nat.le_of_lt h)⟩
  rw [List.getElem_cons_drop, List.take_append_drop]

/-- A node with one child too many is cut at its middle child. -/
theorem exists_middle_child {s : Shape (h + 1)} (hsize : s.size = maxChildren + 1) :
    ∃ page first xs k c ys, s = Shape.inner page first (xs ++ (k, c) :: ys) ∧
      xs.length + 1 = Internal.splitPosition ∧ ys.length + 1 = minChildren + 1 := by
  obtain ⟨page, first, rest, rfl⟩ : ∃ page first rest, s = Shape.inner page first rest :=
    ⟨_, _, _, rfl⟩
  have hmost : maxChildren = 6 := rfl
  rw [Shape.size_inner] at hsize
  obtain ⟨xs, ⟨k, c⟩, ys, rfl, hxs⟩ := exists_append_cons (l := rest) (n := 2) (by omega)
  rw [List.length_append, List.length_cons] at hsize
  refine ⟨page, first, xs, k, c, ys, rfl, by rw [hxs]; rfl, ?_⟩
  have hleast : minChildren = 3 := rfl
  omega

/-- A leaf with one entry too many is cut in front of its middle entry. -/
theorem exists_middle_entry {s : Shape 0} (hsize : s.size = maxLeafKeys + 1) :
    ∃ page xs k id ys, s = Shape.twig page (xs ++ (k, id) :: ys) ∧
      xs.length = Leaf.splitPosition ∧ ys.length + 1 = minLeafKeys := by
  obtain ⟨page, es, rfl⟩ : ∃ page es, s = Shape.twig page es := ⟨_, _, rfl⟩
  have hmost : maxLeafKeys = 5 := rfl
  rw [Shape.size_twig] at hsize
  obtain ⟨xs, ⟨k, id⟩, ys, rfl, hxs⟩ := exists_append_cons (l := es) (n := 3) (by omega)
  rw [List.length_append, List.length_cons] at hsize
  refine ⟨page, xs, k, id, ys, rfl, hxs, ?_⟩
  have hleast : minLeafKeys = 3 := rfl
  omega

/-- Splitting an internal node with one child too many: its children are dealt out to the old page
and a new one. -/
theorem yields_splitInternalPage {r : Route H (h + 1)} {s : Shape (h + 1)} (hs : v.Pending r s)
    (hsize : s.size = maxChildren + 1) :
    Yields (splitInternalPage (s.internal v.keyType r.parent)) v
      (fun split v' => v.Keeps v' ∧ v'.root = v.root ∧ ∃ left k right,
        split = ⟨left.page, r.parent, k, right.page⟩ ∧ v'.SplitAt r left k right ∧
        r.splitLine left k right = r.before ++ s.line ++ r.after ∧
        v.Settles v' (r.pages ++ s.pages) (r.pages ++ (left.pages ++ right.pages)))
      (fun v' => v' = v ∧ v.Full) := by
  refine yields_of_valid fun hv => ?_
  obtain ⟨page, first, xs, k, c, ys, rfl, hxs, hys⟩ := exists_middle_child hsize
  refine (yields_nextPage v).bind ?_
  rintro new v' ⟨hnew, rfl⟩
  have hhalves := hs.halves_inner hxs hys new
  have hkids := Shape.kids_inner_append page new first c k xs ys
  obtain ⟨hleft, hright, hsame⟩ := stored_deal (Shape.inner page first xs)
    (Shape.inner new c ys) r.parent hs hv rfl hkids hnew
  have hkeep := keeps_deal v (Shape.inner page first xs) (Shape.inner new c ys) r.parent
  have hpageLeft : v.grow.HasPage page := (View.keeps_grow v).hasPage hs.hasPage
  have hpageRight :
      (v.grow.put ((Shape.inner page first xs).node v.keyType r.parent)).HasPage new :=
    (View.keeps_put _ _).hasPage (hasPage_next hs.hasPage hnew)
  have hnodup : ((Fork.kids (Shape.inner new c ys)).flatMap Shape.pages).Nodup :=
    (List.nodup_append.1 (Shape.pagesBelow_eq_append hkids ▸
      Shape.nodup_pagesBelow hs.nodup_pages)).2.1
  have hsplit : ((Shape.inner page first (xs ++ (k, c) :: ys)).internal v.keyType r.parent).split
      new = _ := Shape.split_inner hxs
  -- the two halves are written, and the children of the right one linked to it
  simp only [hsplit, Action.ofResult_ok, pure_bind]
  refine (turns_putInternal (hhalves.encodable_left r.parent) hpageLeft).bind_yields ?_
  refine (turns_putInternal (hhalves.encodable_right r.parent) hpageRight).bind_yields ?_
  refine (turns_relinkAll (some new) (Shape.nodup_map_page hnodup) fun p hp => ?_).bind_yields ?_
  · obtain ⟨d, hd, rfl⟩ := List.mem_map.1 hp
    have hd' : d ∈ Fork.kids (Shape.inner page first (xs ++ (k, c) :: ys)) :=
      hkids ▸ List.mem_append_right _ hd
    obtain ⟨hneLeft, hneRight⟩ := ne_of_mem_pagesBelow (Shape.inner page first xs)
      (Shape.inner new c ys) hs hv rfl hnew (Shape.page_mem_pagesBelow hd')
    have hlook := node_put_put v (Shape.inner page first xs) (Shape.inner new c ys) r.parent d.page
    rw [if_neg hneRight, if_neg hneLeft, (hs.below d hd').1] at hlook
    exact ⟨_, hlook⟩
  · exact (turns_pure _).yields ⟨hkeep, rfl, _, k, _, rfl,
      hhalves.splitAt hs hv hnew hkeep rfl hleft hright hsame, Route.splitLine_inner ..,
      hhalves.settles hnew rfl hsame⟩

/-- The view with a new root written above two nodes, and both linked to it. -/
def raise (v : View) (new : PageId) (left : Shape H) (k : Field) (right : Shape H) : View :=
  (((v.grow.put ((Shape.inner new left [(k, right)]).node v.keyType none)).put
    (left.node v.keyType (some new))).put (right.node v.keyType (some new))).setRoot new

theorem keeps_raise (v : View) (new : PageId) (left : Shape H) (k : Field) (right : Shape H) :
    v.Keeps (raise v new left k right) :=
  (View.keeps_grow v).trans ((View.keeps_put _ _).trans ((View.keeps_put _ _).trans
    ((View.keeps_put _ _).trans (View.keeps_setRoot _ _))))

theorem node_raise (v : View) (new : PageId) (left : Shape H) (k : Field) (right : Shape H)
    (p : PageId) : (raise v new left k right).node p =
      if p = right.page then some (right.node v.keyType (some new))
      else if p = left.page then some (left.node v.keyType (some new))
      else if p = new then some ((Shape.inner new left [(k, right)]).node v.keyType none)
      else v.node p := by
  simp only [raise, View.node_setRoot, View.node_put, View.node_grow, Shape.page_node,
    Shape.page_inner]

section Raise

variable {left right : Shape H} {k : Field} {new : PageId}

theorem node_raise_of_ne (hnew : new.number.toNat = v.pageCount) {p : PageId} (hp : v.HasPage p)
    (hleft : p ≠ left.page) (hright : p ≠ right.page) :
    (raise v new left k right).node p = v.node p := by
  rw [node_raise, if_neg hright, if_neg hleft, if_neg (hp.ne_next hnew)]

theorem node_raise_new (hs : v.SplitAt .top left k right) (hv : v.Valid)
    (hnew : new.number.toNat = v.pageCount) : (raise v new left k right).node new =
      some ((Shape.inner new left [(k, right)]).node v.keyType none) := by
  have hneLeft := (hs.left_stored.hasPage hv left.page_mem_pages).ne_next hnew
  have hneRight := (hs.right_stored.hasPage hv right.page_mem_pages).ne_next hnew
  rw [node_raise, if_neg hneRight.symm, if_neg hneLeft.symm, if_pos rfl]

/-- The halves of the old root, linked to a new root that stands above them. -/
theorem shaped_raise (hs : v.SplitAt .top left k right) (hv : v.Valid)
    (hnew : new.number.toNat = v.pageCount) :
    (raise v new left k right).Shaped (Shape.inner new left [(k, right)]) := by
  have hnodup : (left.pages ++ right.pages).Nodup := hs.nodup
  obtain ⟨hnodupLeft, hnodupRight, hdisjoint⟩ := List.nodup_append.1 hnodup
  have hkeep := keeps_raise v new left k right
  refine ⟨rfl, ⟨node_raise_new hs hv hnew, ?_⟩, ?_, ?_, ⟨?_, ?_⟩, ?_⟩
  · intro c hc
    rcases List.mem_cons.1 (show c ∈ [left, right] from hc) with rfl | hc
    · refine ⟨?_, hs.left_stored.2.congr fun p hp => ?_⟩
      · rw [node_raise, if_neg (hdisjoint _ c.page_mem_pages _ right.page_mem_pages), if_pos rfl]
        rfl
      · have hp' := c.pagesBelow_subset hp
        refine node_raise_of_ne hnew (hs.left_stored.hasPage hv hp') ?_
          (hdisjoint _ hp' _ right.page_mem_pages)
        rintro rfl
        exact Shape.page_not_mem_pagesBelow hnodupLeft hp
    · obtain rfl := List.mem_singleton.1 hc
      refine ⟨(node_raise ..).trans (if_pos rfl), hs.right_stored.2.congr fun p hp => ?_⟩
      have hp' := c.pagesBelow_subset hp
      refine node_raise_of_ne hnew (hs.right_stored.hasPage hv hp')
        (hdisjoint _ left.page_mem_pages _ hp').symm ?_
      rintro rfl
      exact Shape.page_not_mem_pagesBelow hnodupRight hp
  · rw [Shape.pages_inner, List.flatMap_cons, List.flatMap_nil, List.append_nil, List.nodup_cons]
    refine ⟨fun hmem => ?_, hnodup⟩
    obtain ⟨n, hn⟩ := hs.exists_node hmem
    exact (hv.hasPage hn).ne_next hnew rfl
  · rw [← Route.splitLine_top]
    exact hs.ascending
  · rw [Shape.size_inner]
    exact ⟨Nat.le_of_ble_eq_true rfl, Nat.le_of_ble_eq_true rfl⟩
  · intro c hc
    rcases List.mem_cons.1 (show c ∈ [left, right] from hc) with rfl | hc
    · exact hs.left_occupied
    · rw [List.mem_singleton.1 hc]
      exact hs.right_occupied
  · rw [← Route.splitLine_top]
    exact fun m hm => hkeep.keyOk (hs.keys_ok m hm)

theorem settles_raise (hnew : new.number.toNat = v.pageCount) :
    v.Settles (raise v new left k right) (left.pages ++ right.pages)
      (Shape.inner new left [(k, right)]).pages := by
  refine View.settles_of_grown rfl hnew (fun p => ?_) fun p hp hmem =>
    node_raise_of_ne hnew hp ?_ ?_
  · rw [Shape.pages_inner, List.mem_cons, List.flatMap_cons, List.flatMap_nil, List.append_nil]
  · rintro rfl
    exact hmem (List.mem_append_left _ left.page_mem_pages)
  · rintro rfl
    exact hmem (List.mem_append_right _ right.page_mem_pages)

/-- A new root above the halves of the old one. It is written before they are linked to it. -/
theorem yields_addRoot (hs : v.SplitAt .top left k right) :
    Yields (addRoot ⟨left.page, none, k, right.page⟩) v
      (fun _ v' => v.Keeps v' ∧ v.Raises v' H (H + 1) ∧ ∃ new,
        v'.Shaped (Shape.inner new left [(k, right)]) ∧
          v.Settles v' (left.pages ++ right.pages) (Shape.inner new left [(k, right)]).pages)
      (fun v' => v' = v ∧ v.Full) := by
  refine yields_of_valid fun hv => ?_
  have hpage := hs.left_stored.hasPage hv left.page_mem_pages
  refine (yields_nextPage v).bind ?_
  rintro new v' ⟨hnew, rfl⟩
  have hpageNew := hasPage_next hpage hnew
  have hneLeft : left.page ≠ new := hpage.ne_next hnew
  have hneRight : right.page ≠ new :=
    (hs.right_stored.hasPage hv right.page_mem_pages).ne_next hnew
  have hneBoth : left.page ≠ right.page :=
    (List.nodup_append.1 (show (left.pages ++ right.pages).Nodup from hs.nodup)).2.2 _
      left.page_mem_pages _ right.page_mem_pages
  have henc : ((Shape.inner new left [(k, right)]).node v.keyType none).Encodable := by
    refine Shape.encodable_node ?_ (by rw [Shape.size_inner]; exact Nat.le_of_ble_eq_true rfl)
    rw [← Route.splitLine_top]
    exact hs.keys_ok
  have hroot : Internal.rootAbove new v.keyType left.page k right.page =
      (Shape.inner new left [(k, right)]).internal v.keyType none := rfl
  refine yields_get_bind fun t ht => ?_
  have htype : t.keyType = v.keyType := congrArg View.keyType ht.2
  rw [htype, hroot]
  refine (turns_putInternal henc hpageNew).bind_yields ?_
  refine (turns_relink ((Function.update_of_ne hneLeft ..).trans hs.left_stored.1)
    (some new)).bind_yields ?_
  rw [Shape.withParent_node]
  have hrightNode : ((v.grow.put (.internal ((Shape.inner new left [(k, right)]).internal v.keyType
      none))).put (left.node v.keyType (some new))).node right.page =
        some (right.node v.keyType none) := by
    rw [View.put, Shape.page_node]
    exact (Function.update_of_ne hneBoth.symm ..).trans
      ((Function.update_of_ne hneRight ..).trans hs.right_stored.1)
  refine (turns_relink hrightNode (some new)).bind_yields ?_
  rw [Shape.withParent_node]
  have hold : v.root = left.page := hs.root_eq
  exact (turns_moveRoot hpageNew.1 (Nat.succ_pos _)).yields ⟨keeps_raise v new left k right,
    .inr ⟨rfl, hnew.ge, k, right.page, hold ▸ node_raise_new hs hv hnew⟩, new,
    shaped_raise hs hv hnew, settles_raise hnew⟩

end Raise

/-- The separator of a split node leads to the place of the node. -/
theorem firstLarger_splitAt {page : PageId} {ls : List (Shape h × Field)}
    {rs : List (Field × Shape h)} {above : Route H (h + 1)} {left right : Shape h} {k : Field}
    (hs : v.SplitAt (.down page ls rs above) left k right) :
    Keys.firstLarger k (Fork.keys (Route.fork page ls left rs)) = ls.length := by
  obtain ⟨hbefore, hright, hcross⟩ := List.pairwise_append.1 hs.ascending
  obtain ⟨hbefore, -, hcross'⟩ := List.pairwise_append.1 hbefore
  have hk : Mark.separator k ∈ left.line ++ .separator k :: right.line :=
    List.mem_append_right _ List.mem_cons_self
  have hls : ∀ k' ∈ (ls.map Prod.snd).reverse, k' ≤ k := by
    intro k' hk'
    obtain ⟨e, he, rfl⟩ := List.mem_map.1 (List.mem_reverse.1 hk')
    have hmem : Mark.separator e.2 ∈ Route.before (.down page ls rs above) := by
      refine List.mem_append_right _ (List.mem_flatMap.2 ⟨e, List.mem_reverse.2 he, ?_⟩)
      exact List.mem_append_right _ List.mem_cons_self
    exact le_of_lt (Shape.separator_lt_separator.1 (hcross' _ hmem _ hk))
  have hrs : ∀ k' ∈ rs.map Prod.fst, k < k' := by
    intro k' hk'
    obtain ⟨e, he, rfl⟩ := List.mem_map.1 hk'
    have hmem : Mark.separator e.1 ∈ Route.after (.down page ls rs above) := by
      refine List.mem_append_left _ (List.mem_flatMap.2 ⟨e, he, List.mem_cons_self⟩)
    exact Shape.separator_lt_separator.1 (hcross _ (List.mem_append_right _ hk) _ hmem)
  rw [Route.keys_fork, Keys.firstLarger_append hls hrs, List.length_reverse, List.length_map]

/-- The parent takes the right half in, in memory. -/
theorem answers_addRightHalf {page : PageId} {ls : List (Shape h × Field)}
    {rs : List (Field × Shape h)} {above : Route H (h + 1)} {left right : Shape h} {k : Field}
    (hs : v.SplitAt (.down page ls rs above) left k right) :
    Answers (addRightHalf ((Route.fork page ls left rs).internal v.keyType above.parent)
        ⟨left.page, some page, k, right.page⟩) v
      (.ok ((Route.fork page ls left ((k, right) :: rs)).internal v.keyType above.parent)) := by
  have hslot : Keys.firstLarger k ((Route.fork page ls left rs).internal v.keyType
      above.parent).keys = ls.length := firstLarger_splitAt hs
  simp only [addRightHalf, hslot, Route.getChild_fork, if_true, Route.insertChild_fork,
    Action.ofChecked_ok]
  exact answers_pure _

/-- A parent that has room for the right half is written, and the tree is as it should be. -/
theorem yields_putGrown {page : PageId} {ls : List (Shape h × Field)} {rs : List (Field × Shape h)}
    {above : Route H (h + 1)} {left right : Shape h} {k : Field} {E : View → Prop}
    (hs : v.SplitAt (.down page ls rs above) left k right) (hv : v.Valid)
    (hfits : (Route.fork page ls left ((k, right) :: rs)).size ≤ Shape.most (h + 1)) :
    Yields (putInternal ((Route.fork page ls left ((k, right) :: rs)).internal v.keyType
        above.parent)) v
      (fun _ v' => v.Keeps v' ∧ ∃ (H' : Nat) (s' : Shape H'), v'.Shaped s' ∧ v.Raises v' H H' ∧
        s'.line = Route.splitLine (.down page ls rs above) left k right ∧
          v.Settles v' (Route.pages (.down page ls rs above) ++ (left.pages ++ right.pages))
            s'.pages) E := by
  have hpending := hs.pending hv
  have hsize : (Route.fork page ls left ((k, right) :: rs)).size = ls.length + 1 + rs.length + 1 :=
    Route.size_fork
  have hleast := hs.around_occupied.1.1
  refine (turns_putInternal (hpending.encodable hfits above.parent) hpending.hasPage).yields
    ⟨View.keeps_put _ _, H, _, hpending.put ⟨by omega, hfits⟩, .inl ⟨rfl, rfl⟩, ?_, ?_⟩
  · rw [Route.line_plug, Route.splitLine_down]
  · refine (View.settles_put_plug v above _ rfl).congr (fun p => ?_) fun _ => Iff.rfl
    rw [(Route.pages_plug above _).mem_iff, Route.mem_pages_split]

/-- What the tree is when the right half has found its place, and what if the file system has
failed on the way. -/
theorem yields_attachSplit {steps : Nat} {r : Route H h} {left right : Shape h} {k : Field}
    (hs : v.SplitAt r left k right) (hsteps : r.length < steps) :
    Yields (attachSplit steps ⟨left.page, r.parent, k, right.page⟩) v
      (fun _ v' => v.Keeps v' ∧ ∃ (H' : Nat) (s' : Shape H'), v'.Shaped s' ∧ v.Raises v' H H' ∧
        s'.line = r.splitLine left k right ∧
          v.Settles v' (r.pages ++ (left.pages ++ right.pages)) s'.pages)
      (fun v' => v.Keeps v' ∧ v'.root = v.root ∧ v.LeavesVacant v' ∧ v'.Full ∧ ∃ s' : Shape H,
        v'.Shaped s' ∧ s'.line.Sublist (r.splitLine left k right)) := by
  refine yields_of_valid fun hv => ?_
  -- one step for each node on the way up
  induction steps generalizing v h k with
  | zero => exact absurd hsteps (Nat.not_lt_zero _)
  | succ steps ih =>
    cases r with
    | top =>
      refine (yields_addRoot hs).mono ?_ ?_
      · rintro _ v' ⟨hkeep, hraises, new, hshaped, hsettles⟩
        exact ⟨hkeep, _, _, hshaped, hraises, by simp [Route.splitLine, Route.before, Route.after],
          hsettles⟩
      · rintro v' ⟨rfl, hfull⟩
        exact ⟨.refl _, rfl, View.leavesVacant_refl _, hfull, _, hs.shaped,
          Route.sublist_splitLine _ _ _ _⟩
    | down page ls rs above =>
      have hline := @Route.splitLine_down _ _ page ls rs above left right k
      refine (answers_fetchInternal hs.around.1).turns.bind_yields
        ((answers_addRightHalf hs).turns.bind_yields ?_)
      rw [Shape.size_internal]
      split_ifs with hfits
      · -- the parent has room, and this is the end
        exact yields_putGrown hs hv hfits
      · -- else it is split in turn
        refine ((yields_splitInternalPage (hs.pending hv) (hs.size_eq hfits)).mono
          (fun _ _ hq => hq) ?_).bind ?_
        · rintro v' ⟨rfl, hfull⟩
          exact ⟨.refl _, rfl, View.leavesVacant_refl _, hfull, _, hs.shaped,
            Route.sublist_splitLine _ _ _ _⟩
        · rintro split v' ⟨hkeep, hroot, left', k', right', rfl, hs', hline', hsettles⟩
          have hsettles := hsettles.congr (fun p => (Route.mem_pages_split p).symm) fun _ => Iff.rfl
          have hsteps : above.length < steps := Nat.lt_of_succ_lt_succ hsteps
          refine (yields_of_valid fun hv' => ih hs' hsteps hv').mono ?_ ?_
          · rintro _ v'' ⟨hkeep', H', s', hshaped, hraises, hs'', hsettles'⟩
            refine ⟨hkeep.trans hkeep', H', s', hshaped, hraises.of_same hroot hkeep.pageCount_le,
              by rw [hs'', hline', hline], ?_⟩
            exact hsettles.trans hsettles' hkeep
          · rintro v'' ⟨hkeep', hroot', hvacant, hfull, s', hshaped, hs''⟩
            exact ⟨hkeep.trans hkeep', hroot'.trans hroot,
              (hsettles.leavesVacant fun p hp => hs.exists_node hp).trans hvacant hkeep, hfull,
              s', hshaped, by rwa [hline, ← hline']⟩

/-! ### Leaves -/

/-- Splitting a leaf with one entry too many. -/
theorem yields_splitLeafPage {r : Route H 0} {s : Shape 0} (hs : v.Pending r s)
    (hsize : s.size = maxLeafKeys + 1) :
    Yields (splitLeafPage (s.leaf v.keyType r.parent)) v
      (fun split v' => v.Keeps v' ∧ v'.root = v.root ∧ ∃ left k right,
        split = ⟨left.page, r.parent, k, right.page⟩ ∧ v'.SplitAt r left k right ∧
        (r.splitLine left k right).filterMap Mark.entry? =
          (r.before ++ s.line ++ r.after).filterMap Mark.entry? ∧
        v.Settles v' (r.pages ++ s.pages) (r.pages ++ (left.pages ++ right.pages)))
      (fun v' => v' = v ∧ v.Full) := by
  refine yields_of_valid fun hv => ?_
  obtain ⟨page, xs, k, id, ys, rfl, hxs, hys⟩ := exists_middle_entry hsize
  refine (yields_nextPage v).bind ?_
  rintro new v' ⟨hnew, rfl⟩
  have hhalves := hs.halves_twig hxs hys new
  have hne : page ≠ new := hs.hasPage.ne_next hnew
  have hlook := node_put_put v (Shape.twig page xs) (Shape.twig new ((k, id) :: ys)) r.parent
  have hkeep := (View.keeps_grow v).trans ((View.keeps_put v.grow
    ((Shape.twig page xs).node v.keyType r.parent)).trans (View.keeps_put _
      ((Shape.twig new ((k, id) :: ys)).node v.keyType r.parent)))
  have hpageLeft : v.grow.HasPage page := (View.keeps_grow v).hasPage hs.hasPage
  have hpageRight : (v.grow.put ((Shape.twig page xs).node v.keyType r.parent)).HasPage new :=
    (View.keeps_put _ _).hasPage (hasPage_next hs.hasPage hnew)
  have hsplit : ((Shape.twig page (xs ++ (k, id) :: ys)).leaf v.keyType r.parent).split new = _ :=
    Shape.split_twig hxs
  -- the two halves are written
  simp only [hsplit, Action.ofChecked_ok, pure_bind]
  refine (turns_putLeaf (hhalves.encodable_left r.parent) hpageLeft).bind_yields ?_
  refine (turns_putLeaf (hhalves.encodable_right r.parent) hpageRight).bind_yields ?_
  have hsame : ∀ p, v.HasPage p → p ∉ (Shape.twig page (xs ++ (k, id) :: ys)).pages →
      _ = v.node p := fun p hp hmem => (hlook p).trans ((if_neg (hp.ne_next hnew)).trans
    (if_neg fun he => hmem (List.mem_singleton.2 he)))
  exact (turns_pure _).yields ⟨hkeep, rfl, Shape.twig page xs, k, Shape.twig new ((k, id) :: ys),
    rfl, hhalves.splitAt hs hv hnew hkeep rfl
      ⟨(hlook _).trans ((if_neg hne).trans (if_pos rfl)), trivial⟩
      ⟨(hlook _).trans (if_pos rfl), trivial⟩ hsame,
    Route.filterMap_splitLine_twig r page new xs _ k, hhalves.settles hnew rfl hsame⟩

/-! ### Adding a record -/

/-- There is room for an entry between what is smaller and what is larger. -/
theorem ascending_insert {xs ys : List Mark} {m : Mark} (ha : Shape.Ascending (xs ++ ys))
    (hxs : ∀ a ∈ xs, a.rank < m.rank) (hys : ∀ b ∈ ys, m.rank < b.rank) :
    Shape.Ascending (xs ++ m :: ys) := by
  obtain ⟨hx, hy, hcross⟩ := List.pairwise_append.1 ha
  refine List.pairwise_append.2 ⟨hx, List.pairwise_cons.2 ⟨hys, hy⟩, fun a ha' b hb => ?_⟩
  rcases List.mem_cons.1 hb with rfl | hb
  · exact hxs a ha'
  · exact hcross a ha' b hb

/-- The place of a key that is not in the tree yet, among the entries of its leaf. -/
theorem exists_place {key : Field} {r : Route H 0} {w : Shape 0}
    (hr : r.Follows (fun n => Keys.firstLarger key n.keys) v.keyType w)
    (ha : Shape.Ascending (r.plug w).line) (hkey : key ∉ (r.plug w).entries.map Prod.fst) :
    ∃ xs ys, w = Shape.twig w.page (xs ++ ys) ∧
      Keys.firstLarger key (w.leaf v.keyType r.parent).keys = xs.length ∧
      ∀ id, Shape.Ascending (r.before ++ (Shape.twig w.page (xs ++ (key, id) :: ys)).line ++
        r.after) := by
  have hsorted : (w.leaf v.keyType r.parent).keys.Pairwise (· < ·) := Route.keys_leaf_ascending ha
  obtain ⟨kx, ky, heq, hkx, hky⟩ := Keys.exists_split hsorted key
  obtain ⟨xs, ys, hw, rfl, rfl⟩ := List.map_eq_append_iff.1 heq
  have hw : w = Shape.twig w.page (xs ++ ys) := congrArg (Shape.twig w.page) hw
  refine ⟨xs, ys, hw, ?_, fun id => ?_⟩
  · rw [heq, Keys.firstLarger_append hkx hky, List.length_map]
  · obtain ⟨hbefore, hafter⟩ := hr.bounds ha
    have hlt : (toLex (key, false) : Field ×ₗ Bool) < toLex (key, true) :=
      Prod.Lex.toLex_lt_toLex.2 (.inr ⟨rfl, Bool.false_lt_true⟩)
    have hline := ha
    rw [Route.line_plug, hw] at hline
    simp only [Shape.line_twig, List.map_append, List.map_cons, List.append_assoc,
      List.cons_append] at hline ⊢
    rw [← List.append_assoc] at hline ⊢
    refine ascending_insert hline ?_ ?_
    · intro a ha'
      rcases List.mem_append.1 ha' with ha' | ha'
      · exact lt_of_le_of_lt (hbefore a ha') hlt
      · obtain ⟨e, he, rfl⟩ := List.mem_map.1 ha'
        refine Shape.entry_lt_entry.2 (lt_of_le_of_ne (hkx e.1 (List.mem_map_of_mem he)) ?_)
        rintro rfl
        refine hkey (List.mem_map.2 ⟨e, (hr.mem_entries_iff ha).2 ?_, rfl⟩)
        rw [hw]
        exact List.mem_append_left _ he
    · intro b hb
      rcases List.mem_append.1 hb with hb | hb
      · obtain ⟨e, he, rfl⟩ := List.mem_map.1 hb
        exact Shape.entry_lt_entry.2 (hky e.1 (List.mem_map_of_mem he))
      · exact hafter b hb

/-- Records that are there stay when one is added. -/
theorem record_addRecord {s : Shape H} (hs : v.HasShape s) (hv : v.Valid) {r : Record}
    (hid : v.nextRecord.number.toNat = v.recordCount) {e : Field × RecordId} (he : e ∈ s.entries) :
    (v.addRecord r).record e.2 = v.record e.2 := by
  obtain ⟨r', hr', -⟩ := hs.resolved e he
  refine Function.update_of_ne (fun heq => ?_) ..
  have hlt := hv.record_lt hr'
  rw [heq, hid] at hlt
  exact absurd hlt (Nat.lt_irrefl _)

/-- Every entry leads to its record if a record is added for the only one that is new. -/
theorem hasShape_added {s : Shape H} (hs : v.HasShape s) (hv : v.Valid) {r : Record}
    (hid : v.nextRecord.number.toNat = v.recordCount) {v' : View} {H' : Nat} {s' : Shape H'}
    (hkeep : (v.addRecord r).Keeps v') (hs' : v'.Shaped s')
    (hsub : ∀ e ∈ s'.entries, e = (r.key, v.nextRecord) ∨ e ∈ s.entries) : v'.HasShape s' := by
  refine hs'.hasShape fun e he => ?_
  rw [hkeep.record]
  rcases hsub e he with rfl | he
  · exact ⟨r, Function.update_self .., rfl⟩
  · rw [record_addRecord hs hv hid he]
    exact hs.resolved e he

/-- An entry that comes to a leaf comes to the tree. -/
theorem mem_entries_added {r : Route H 0} {p : PageId} {xs ys : List (Field × RecordId)}
    {new e : Field × RecordId} : e ∈ (r.plug (Shape.twig p (xs ++ new :: ys))).entries ↔
      e = new ∨ e ∈ (r.plug (Shape.twig p (xs ++ ys))).entries := by
  rw [Route.entries_plug, Route.entries_plug]
  simp only [Shape.entries_twig, List.mem_append, List.mem_cons]
  tauto

/-- A key that is there is refused. -/
theorem refuses_addRecord {s : Shape H} (hs : v.Shaped s) (hv : v.Valid) {r : Record}
    (hkey : r.key ∈ s.entries.map Prod.fst) :
    Answers (addRecord r) v (.error (.error (.alreadyExists r.key))) := by
  obtain ⟨way, w, hplug, hway, hleaf⟩ := answers_findLeaf hs hv r.key
  subst hplug
  refine hleaf.bind ?_
  rw [if_pos ((hway.isSome_indexOf?_iff hs.ascending).2 hkey)]
  exact answers_fail _

/-- The first record of a tree is refused if it is too large. -/
theorem refuses_addLarge {s : Shape H} (hs : v.Shaped s) (hv : v.Valid) {r : Record}
    (hkey : r.key ∉ s.entries.map Prod.fst) (hr : r.validate = .ok ()) (hsize : v.recordSize = none)
    (hlt : RecordFile.maxRecordSize < r.size) :
    Answers (addRecord r) v (.error (.error (.encoding (.largeRecord r.size)))) := by
  obtain ⟨way, w, hplug, hway, hleaf⟩ := answers_findLeaf hs hv r.key
  subst hplug
  refine hleaf.bind ?_
  rw [if_neg fun h => hkey ((hway.isSome_indexOf?_iff hs.ascending).1 h)]
  exact (refuses_storeLarge hr hsize hlt).bind_error

/-- A leaf with one more entry is written, or split if it is too large. -/
theorem yields_writeGrown {r : Route H 0} {w s : Shape 0} (hw : v.Shaped (r.plug w))
    (hs : v.Pending r s) (hpage : s.page = w.page) (hsize : s.size = w.size + 1)
    (hsub : w.entries ⊆ s.entries) :
    Yields (if (s.leaf v.keyType r.parent).size ≤ maxLeafKeys then
        putLeaf (s.leaf v.keyType r.parent)
      else do
        let steps := (← get).stepLimit
        attachSplit steps (← splitLeafPage (s.leaf v.keyType r.parent))) v
      (fun _ v' => v.Keeps v' ∧ ∃ (H' : Nat) (s' : Shape H'), v'.Shaped s' ∧ v.Raises v' H H' ∧
        s'.entries = (r.plug s).entries ∧ v.Settles v' (r.plug w).pages s'.pages)
      (fun v' => v.Keeps v' ∧ v'.root = v.root ∧ v.LeavesVacant v' ∧ v'.Full ∧ ∃ s' : Shape H,
        v'.Shaped s' ∧ s'.entries ⊆ (r.plug s).entries) := by
  refine yields_of_valid fun hv => ?_
  -- the leaf is on the page that it was on
  have hpages : ∀ p, p ∈ (r.plug s).pages ↔ p ∈ (r.plug w).pages := fun p => by
    rw [(Route.pages_plug r s).mem_iff, (Route.pages_plug r w).mem_iff]
    exact iff_of_eq (congrArg (fun q => p ∈ r.pages ++ [q]) hpage)
  obtain ⟨⟨hleast, hmost⟩, -⟩ := (Route.occupied_plug.1 hw.occupied).2
  have hlen : (s.leaf v.keyType r.parent).size = s.size := List.length_map ..
  rw [hlen]
  split_ifs with hfits
  · refine (turns_putLeaf (hs.encodable hfits r.parent) hs.hasPage).yields
      ⟨View.keeps_put _ _, H, _, hs.put ⟨by omega, hfits⟩, .inl ⟨rfl, rfl⟩, rfl,
        (View.settles_put_plug v r s rfl).congr hpages fun _ => Iff.rfl⟩
  · refine yields_get_bind fun t ht => ?_
    rw [ht.stepLimit_eq]
    have hfull : s.size = maxLeafKeys + 1 := by
      have : Shape.most 0 = maxLeafKeys := rfl
      omega
    refine ((yields_splitLeafPage hs hfull).mono (fun _ _ hq => hq) ?_).bind ?_
    · rintro v' ⟨rfl, hfull⟩
      refine ⟨.refl _, rfl, View.leavesVacant_refl _, hfull, _, hw, ?_⟩
      rw [Route.entries_plug, Route.entries_plug]
      intro e he
      simp only [List.mem_append] at he ⊢
      exact he.imp_left (Or.imp_right fun he => hsub he)
    · rintro split v' ⟨hkeep, hroot, left, k, right, rfl, hsplit, hline, hsettles⟩
      have hsettles := hsettles.congr
        (fun p => (Route.pages_plug r s).mem_iff.symm.trans (hpages p)) fun _ => Iff.rfl
      have hentries : (r.splitLine left k right).filterMap Mark.entry? = (r.plug s).entries := by
        rw [hline, ← Shape.filterMap_line, Route.line_plug]
      have hlt := hw.length_lt hv
      refine (yields_attachSplit hsplit (by omega)).mono ?_ ?_
      · rintro _ v'' ⟨hkeep', H', s', hs', hraises, hline', hsettles'⟩
        refine ⟨hkeep.trans hkeep', H', s', hs', hraises.of_same hroot hkeep.pageCount_le, ?_, ?_⟩
        · rw [← hentries, ← hline', Shape.filterMap_line]
        · exact hsettles.trans hsettles' hkeep
      · rintro v'' ⟨hkeep', hroot', hvacant, hfull, s', hs', hline'⟩
        refine ⟨hkeep.trans hkeep', hroot'.trans hroot, (hsettles.leavesVacant fun p hp =>
          hw.stored.exists_node hp).trans hvacant hkeep, hfull, s', hs', ?_⟩
        rw [← hentries, ← Shape.filterMap_line]
        exact (hline'.filterMap _).subset

/-- The leaf that a key leads to takes the entry of a record that has been stored, in memory. -/
theorem exists_grown {way : Route H 0} {w : Shape 0} (hs : v.Shaped (way.plug w)) {r : Record}
    (hway : way.Follows (fun n => Keys.firstLarger r.key n.keys) v.keyType w)
    (hkey : r.key ∉ (way.plug w).entries.map Prod.fst) (htype : r.key.type = v.keyType)
    (hr : r.validate = .ok ()) (hv : (v.addRecord r).Valid) :
    ∃ s : Shape 0, (w.leaf v.keyType way.parent).insertEntry
        (Keys.firstLarger r.key (w.leaf v.keyType way.parent).keys) r.key v.nextRecord =
          .ok (s.leaf v.keyType way.parent) ∧
      (v.addRecord r).Pending way s ∧ s.page = w.page ∧ s.size = w.size + 1 ∧
      w.entries ⊆ s.entries ∧
      ∀ e, e ∈ (way.plug s).entries ↔ e = (r.key, v.nextRecord) ∨ e ∈ (way.plug w).entries := by
  obtain ⟨xs, ys, hw, hslot, hline⟩ := exists_place hway hs.ascending hkey
  refine ⟨Shape.twig w.page (xs ++ (r.key, v.nextRecord) :: ys), ?_, ?_, rfl, ?_, ?_, ?_⟩
  · rw [hslot]
    conv => lhs; rw [hw]
    exact Shape.insertEntry_twig rfl
  · refine (hs.addRecord r).pending hv rfl (hline v.nextRecord) fun e he => ?_
    rw [hw]
    rcases List.mem_append.1 he with he | he
    · exact .inl (List.mem_append_left _ he)
    · rcases List.mem_cons.1 he with rfl | he
      · exact .inr ⟨htype, Record.key_fits hr⟩
      · exact .inl (List.mem_append_right _ he)
  · conv => rhs; rw [hw]
    simp only [Shape.size_twig, List.length_append, List.length_cons]
    rfl
  · rw [hw]
    intro e he
    rcases List.mem_append.1 he with he | he
    · exact List.mem_append_left _ he
    · exact List.mem_append_right _ (List.mem_cons_of_mem _ he)
  · intro e
    conv => rhs; rw [hw]
    exact mem_entries_added

/-- A new record takes its place among the entries. Even if the file system fails on the way, the
tree stays well-formed. -/
theorem yields_addRecord {s : Shape H} (hs : v.HasShape s) {r : Record}
    (hkey : r.key ∉ s.entries.map Prod.fst) (htype : r.key.type = v.keyType)
    (hr : r.validate = .ok ()) (hsize : ∀ n, v.recordSize = some n → n = r.size)
    (hle : r.size ≤ RecordFile.maxRecordSize) :
    Yields (addRecord r) v
      (fun _ v' => (v.addRecord r).Keeps v' ∧ ∃ (H' : Nat) (s' : Shape H'), v'.HasShape s' ∧
        v.Raises v' H H' ∧ (∀ e, e ∈ s'.entries ↔ e = (r.key, v.nextRecord) ∨ e ∈ s.entries) ∧
          (∀ e ∈ s.entries, v'.record e.2 = v.record e.2) ∧ v.Settles v' s.pages s'.pages ∧
            v.Retires v')
      (fun v' => (∃ s' : Shape H, v'.HasShape s') ∧ v'.root = v.root ∧ v.Retires v' ∧
        v'.Full) := by
  refine yields_of_valid fun hv => ?_
  have hshaped := hs.shaped hv
  obtain ⟨way, w, hplug, hway, hleaf⟩ := answers_findLeaf hshaped hv r.key
  subst hplug
  refine hleaf.turns.bind_yields ?_
  rw [if_neg fun h => hkey ((hway.isSome_indexOf?_iff hshaped.ascending).1 h)]
  -- the record is stored first; no entry leads to its slot yet
  refine ((yields_storeRecord hr hsize hle).mono (fun _ _ hq => hq) ?_).bind ?_
  · rintro v' ⟨rfl, hfull⟩
    exact ⟨⟨_, hs⟩, rfl, .refl _, hfull⟩
  rintro id v' ⟨rfl, hid, rfl⟩
  refine yields_of_valid fun hv' => ?_
  obtain ⟨s, hinsert, hpending, hpage, hsize', hsub, hmem⟩ :=
    exists_grown hshaped hway hkey htype hr hv'
  simp only [hinsert, Action.ofChecked_ok, pure_bind]
  refine (yields_writeGrown (hshaped.addRecord r) hpending hpage hsize' hsub).mono ?_ ?_
  · rintro _ v' ⟨hkeep, H', s', hs', hraises, hentries, hsettles⟩
    have hiff : ∀ e, e ∈ s'.entries ↔ e = (r.key, v.nextRecord) ∨ e ∈ (way.plug w).entries := by
      intro e
      rw [hentries, hmem]
    have hsettles := hsettles.of_addRecord
    refine ⟨hkeep, H', s', hasShape_added hs hv hid hkeep hs' fun e he => (hiff e).1 he,
      hraises.of_same rfl (Nat.le_refl _), hiff, fun e he => ?_,
      hsettles, View.retires_addRecord hid hkeep (hsettles.leavesVacant fun p hp =>
        hshaped.stored.exists_node hp)⟩
    rw [hkeep.record, record_addRecord hs hv hid he]
  · rintro v' ⟨hkeep, hroot, hvacant, hfull, s', hs', hentries⟩
    exact ⟨⟨s', hasShape_added hs hv hid hkeep hs' fun e he => (hmem e).1 (hentries he)⟩, hroot,
      View.retires_addRecord hid hkeep hvacant, hfull⟩

end Tree
end RecordIndex
