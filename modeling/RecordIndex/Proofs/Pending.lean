import Mathlib.Data.List.Nodup
import Mathlib.Data.List.Perm.Basic
import RecordIndex.Proofs.Edits

/-!
# Nodes that have not been written yet

A change works upwards: below a node everything is on its pages, around it too, and only the node
itself is still in memory (`View.Pending`). Once it is written, if its size is right, the tree is as
it should be (`View.Pending.put`).
-/

namespace RecordIndex

namespace View

variable {v : View}

/-- The node `s` in the place at the end of a way is in memory, and all else is on its pages. -/
structure Pending (v : View) {H h : Nat} (r : Route H h) (s : Shape h) : Prop where
  root_eq : v.root = (r.plug s).page
  around : r.Stored v.node v.keyType s
  below : s.Below v.node v.keyType
  hasPage : v.HasPage s.page
  nodup : (r.pages ++ s.pages).Nodup
  around_occupied : r.Occupied
  filled : s.Filled
  ascending : Shape.Ascending (r.before ++ s.line ++ r.after)
  keys_ok : ∀ m ∈ r.before ++ s.line ++ r.after, v.KeyOk m.key

end View

namespace Shape

variable {h : Nat}

theorem Occupied.of_not_root {s : Shape h} (hs : s.Occupied false) (isRoot : Bool) :
    s.Occupied isRoot := by
  refine ⟨⟨Nat.le_trans ?_ hs.1.1, hs.1.2⟩, hs.2⟩
  cases h <;> cases isRoot <;> simp [least, minRootChildren, minChildren]

end Shape

/-- A leaf is in memory, with other entries than on its page. -/
theorem View.Shaped.pending {v : View} {H : Nat} {r : Route H 0} {w s : Shape 0}
    (hw : v.Shaped (r.plug w)) (hv : v.Valid) (hpage : s.page = w.page)
    (ha : Shape.Ascending (r.before ++ s.line ++ r.after))
    (hkeys : ∀ e ∈ s.entries, e ∈ w.entries ∨ v.KeyOk e.1) : v.Pending r s where
  root_eq := by rw [hw.root_eq, Route.page_plug hpage]
  around := (Route.stored_plug.1 hw.stored).1.of_page_eq hpage
  below := trivial
  hasPage := by
    rw [hpage]
    exact hv.hasPage (Route.stored_plug.1 hw.stored).2.1
  nodup := by
    rw [Shape.pages_eq, hpage]
    exact (r.pages_plug w).nodup_iff.1 hw.nodup
  around_occupied := (Route.occupied_plug.1 hw.occupied).1
  filled := trivial
  ascending := ha
  keys_ok m hm := by
    have hold := hw.keys_ok
    simp only [Route.line_plug, List.mem_append] at hold hm
    rcases hm with (hm | hm) | hm
    · exact hold m (.inl (.inl hm))
    · obtain ⟨e, he, rfl⟩ := List.mem_map.1 hm
      rcases hkeys e he with he | he
      · exact hold _ (.inl (.inr (List.mem_map_of_mem he)))
      · exact he
    · exact hold m (.inr hm)

namespace View.Pending

variable {v : View} {H h : Nat} {r : Route H h} {s : Shape h}

theorem nodup_pages (hs : v.Pending r s) : s.pages.Nodup := (List.nodup_append.1 hs.nodup).2.1

theorem ne_of_mem_around (hs : v.Pending r s) {p : PageId} (hp : p ∈ r.pages) {q : PageId}
    (hq : q ∈ s.pages) : p ≠ q := (List.nodup_append.1 hs.nodup).2.2 p hp q hq

/-- All pages of the tree are there, written or not. -/
theorem hasPage_of_mem (hs : v.Pending r s) (hv : v.Valid) {p : PageId}
    (hp : p ∈ r.pages ++ s.pages) : v.HasPage p := by
  rcases List.mem_append.1 hp with hp | hp
  · exact hs.around.hasPage hv hp
  · rw [Shape.pages_eq] at hp
    rcases List.mem_cons.1 hp with rfl | hp
    · exact hs.hasPage
    · exact hs.below.hasPage hv hp

theorem encodable (hs : v.Pending r s) (hsize : s.size ≤ Shape.most h) (parent : Option PageId) :
    (s.node v.keyType parent).Encodable :=
  Shape.encodable_node (fun m hm =>
    hs.keys_ok m (List.mem_append_left _ (List.mem_append_right _ hm))) hsize

/-- Writing the node puts the tree in order. -/
theorem put (hs : v.Pending r s) (hsize : Shape.least r.isTop h ≤ s.size ∧ s.size ≤ Shape.most h) :
    (v.put (s.node v.keyType r.parent)).Shaped (r.plug s) where
  root_eq := hs.root_eq
  stored := by
    refine Route.stored_plug.2 ⟨hs.around.congr fun p hp => ?_, ?_⟩
    · rw [node_put, Shape.page_node, if_neg (hs.ne_of_mem_around hp s.page_mem_pages)]
    · refine ⟨by rw [node_put, Shape.page_node, if_pos rfl]; rfl, hs.below.congr fun p hp => ?_⟩
      rw [node_put, Shape.page_node, if_neg]
      rintro rfl
      exact Shape.page_not_mem_pagesBelow hs.nodup_pages hp
  nodup := (r.pages_plug s).nodup_iff.2 hs.nodup
  ascending := by
    rw [Route.line_plug]
    exact hs.ascending
  occupied := Route.occupied_plug.2 ⟨hs.around_occupied, hsize, hs.filled⟩
  keys_ok := by
    rw [Route.line_plug]
    exact hs.keys_ok

end View.Pending
end RecordIndex
