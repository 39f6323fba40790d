import Mathlib.Data.List.Nodup
import Mathlib.Data.List.NodupEquivFin
import RecordIndex.Proofs.Route
import RecordIndex.Proofs.View

/-!
# Well-formed trees

A tree is well-formed (`Tree.WellFormed`) if what it shows has a shape (`View.HasShape`): the nodes
of the shape stand on distinct pages, link to their parents, keep to their ranges, are neither too
full nor too empty, and every entry leads to a record with its key.

`View.Shaped` is the part of this that the index file is about, in the form in which it is used: the
entries and separators ascend from left to right (`View.HasShape.shaped`, `View.Shaped.hasShape`).
-/

namespace RecordIndex

namespace View

/-- The tree has the shape `s`. -/
structure HasShape (v : View) {h : Nat} (s : Shape h) : Prop where
  root_eq : v.root = s.page
  stored : s.Stored v.node v.keyType none
  nodup : s.pages.Nodup
  ranged : s.Ranged none none
  occupied : s.Occupied true
  resolved : ∀ e ∈ s.entries, ∃ r, v.record e.2 = some r ∧ r.key = e.1

/-- The tree has some shape. -/
def WellFormed (v : View) : Prop := ∃ (h : Nat) (s : Shape h), v.HasShape s

/-- The key can stand on a page of the tree. -/
def KeyOk (v : View) (k : Field) : Prop := k.type = v.keyType ∧ k.Fits

/-- The nodes of the tree have the shape `s`. -/
structure Shaped (v : View) {h : Nat} (s : Shape h) : Prop where
  root_eq : v.root = s.page
  stored : s.Stored v.node v.keyType none
  nodup : s.pages.Nodup
  ascending : Shape.Ascending s.line
  occupied : s.Occupied true
  keys_ok : ∀ m ∈ s.line, v.KeyOk m.key

variable {v : View} {h : Nat} {s : Shape h}

theorem HasShape.shaped (hs : v.HasShape s) (hv : v.Valid) : v.Shaped s :=
  ⟨hs.root_eq, hs.stored, hs.nodup, ((Shape.ranged_iff hs.occupied.2).1 hs.ranged).1, hs.occupied,
    fun _ hm => hs.stored.key_ok hv.encodable hm⟩

theorem Shaped.hasShape (hs : v.Shaped s)
    (hresolved : ∀ e ∈ s.entries, ∃ r, v.record e.2 = some r ∧ r.key = e.1) : v.HasShape s where
  root_eq := hs.root_eq
  stored := hs.stored
  nodup := hs.nodup
  ranged := (Shape.ranged_iff hs.occupied.2).2 ⟨hs.ascending, fun _ _ => ⟨by simp, by simp⟩⟩
  occupied := hs.occupied
  resolved := hresolved

end View

/-- The tree can be unfolded from its root, and everything is as it should be. -/
def Tree.WellFormed (t : Tree) : Prop := t.view.WellFormed

/-! ### Counting pages -/

/-- Distinct pages of a file with `n` pages, of which none is the header page. -/
theorem length_lt_of_nodup {ps : List PageId} {n : Nat} (hn : ps.Nodup)
    (hlt : ∀ p ∈ ps, p ≠ .header ∧ p.number.toNat < n) (hpos : 0 < n) : ps.length < n := by
  have hinj : ((.header :: ps).map fun p => p.number.toNat).Nodup := by
    refine List.Nodup.map (fun p q he => congrArg PageId.mk (UInt64.toNat_inj.1 he)) ?_
    exact List.nodup_cons.2 ⟨fun hh => (hlt _ hh).1 rfl, hn⟩
  have hsub : ((.header :: ps).map fun p => p.number.toNat) ⊆ List.range n := by
    intro i hi
    obtain ⟨p, hp, rfl⟩ := List.mem_map.1 hi
    rcases List.mem_cons.1 hp with rfl | hp
    · exact List.mem_range.2 hpos
    · exact List.mem_range.2 (hlt p hp).2
  have hle := (List.subperm_of_subset hinj hsub).length_le
  rw [List.length_map, List.length_cons, List.length_range] at hle
  exact hle

namespace Shape

theorem height_lt_length_pages {h : Nat} (s : Shape h) : h < s.pages.length := by
  induction h with
  | zero => exact Nat.zero_lt_one
  | succ h ih =>
    obtain ⟨c, rest, hs⟩ := exists_inner s
    rw [hs, pages_inner, List.length_cons, List.length_append]
    have := ih c
    omega

variable {v : View} {h : Nat} {s : Shape h} {parent : Option PageId}

theorem Stored.hasPage (hs : s.Stored v.node v.keyType parent) (hv : v.Valid) {p : PageId}
    (hp : p ∈ s.pages) : v.HasPage p := by
  obtain ⟨n, hn⟩ := hs.exists_node hp
  exact hv.hasPage hn

theorem Below.hasPage (hs : s.Below v.node v.keyType) (hv : v.Valid) {p : PageId}
    (hp : p ∈ s.pagesBelow) : v.HasPage p := by
  cases h with
  | zero => cases hp
  | succ h =>
    obtain ⟨c, hc, hp⟩ := List.mem_flatMap.1 hp
    exact Stored.hasPage (hs c hc) hv hp

/-- A stored tree of distinct pages has fewer nodes than the file has pages. -/
theorem Stored.length_pages_lt (hs : s.Stored v.node v.keyType parent) (hv : v.Valid)
    (hn : s.pages.Nodup) : s.pages.length < v.pageCount := by
  refine length_lt_of_nodup hn (fun p hp => hs.hasPage hv hp) ?_
  exact Nat.lt_of_le_of_lt (Nat.zero_le _) (hs.hasPage hv s.page_mem_pages).2

end Shape

/-- A way is shorter than the file has pages. -/
theorem View.Shaped.length_lt {v : View} {H h : Nat} {r : Route H h} {s : Shape h}
    (hs : v.Shaped (r.plug s)) (hv : v.Valid) : r.length < v.pageCount := by
  have hlt := hs.stored.length_pages_lt hv hs.nodup
  have hle := r.length_le_length_pages
  rw [(r.pages_plug s).length_eq, List.length_append] at hlt
  omega

theorem Route.Stored.hasPage {v : View} {H h : Nat} {r : Route H h} {s : Shape h}
    (hr : r.Stored v.node v.keyType s) (hv : v.Valid) {p : PageId} (hp : p ∈ r.pages) :
    v.HasPage p := by
  obtain ⟨n, hn⟩ := hr.exists_node hp
  exact hv.hasPage hn

end RecordIndex
