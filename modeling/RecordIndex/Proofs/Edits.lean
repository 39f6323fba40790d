import Mathlib.Data.List.Nodup
import Mathlib.Data.List.Pairwise
import RecordIndex.Proofs.Effects
import RecordIndex.Proofs.WellFormed

/-!
# Edits of a tree

A change to a tree writes some pages and leaves all others as they are. `View.Keeps` says that all
but nodes and the root stays, and `Shape.Stored.congr` that a tree stays stored where nothing is
written.

* `Tree.turns_relinkAll`: linking several nodes to another parent.
* `Shape.stored_relinked`: the trees below them are then stored below that parent.
* `Shape.encodable_node`: a node whose keys can stand on a page has a page.
-/

namespace RecordIndex

/-- Only nodes, the number of pages and the root may change, and the header page goes with the
root. -/
structure View.Keeps (v v' : View) : Prop where
  home : v'.home = v.home
  needsRepair : v'.needsRepair = v.needsRepair
  keyType : v'.keyType = v.keyType
  recordSize : v'.recordSize = v.recordSize
  recordCount : v'.recordCount = v.recordCount
  record : v'.record = v.record
  pageCount_le : v.pageCount ≤ v'.pageCount
  header : v.header = some ⟨v.keyType, v.root⟩ → v'.header = some ⟨v'.keyType, v'.root⟩

namespace View

variable {v v' v'' : View}

theorem Keeps.refl (v : View) : v.Keeps v :=
  ⟨rfl, rfl, rfl, rfl, rfl, rfl, Nat.le_refl _, id⟩

theorem Keeps.trans (h : v.Keeps v') (h' : v'.Keeps v'') : v.Keeps v'' where
  home := h'.home.trans h.home
  needsRepair := h'.needsRepair.trans h.needsRepair
  keyType := h'.keyType.trans h.keyType
  recordSize := h'.recordSize.trans h.recordSize
  recordCount := h'.recordCount.trans h.recordCount
  record := h'.record.trans h.record
  pageCount_le := Nat.le_trans h.pageCount_le h'.pageCount_le
  header hv := h'.header (h.header hv)

theorem keeps_put (v : View) (n : Node) : v.Keeps (v.put n) :=
  ⟨rfl, rfl, rfl, rfl, rfl, rfl, Nat.le_refl _, id⟩

theorem keeps_drop (v : View) (p : PageId) : v.Keeps (v.drop p) :=
  ⟨rfl, rfl, rfl, rfl, rfl, rfl, Nat.le_refl _, id⟩

theorem keeps_grow (v : View) : v.Keeps v.grow :=
  ⟨rfl, rfl, rfl, rfl, rfl, rfl, Nat.le_succ _, id⟩

theorem keeps_setRoot (v : View) (p : PageId) : v.Keeps (v.setRoot p) :=
  ⟨rfl, rfl, rfl, rfl, rfl, rfl, Nat.le_refl _, fun _ => rfl⟩

theorem Keeps.hasPage (h : v.Keeps v') {p : PageId} (hp : v.HasPage p) : v'.HasPage p :=
  ⟨hp.1, Nat.lt_of_lt_of_le hp.2 h.pageCount_le⟩

theorem Keeps.keyOk (h : v.Keeps v') {k : Field} (hk : v.KeyOk k) : v'.KeyOk k :=
  ⟨by rw [hk.1, h.keyType], hk.2⟩

/-- The view with several nodes linked to another parent. -/
def relinkAll (v : View) (ps : List PageId) (parent : Option PageId) : View :=
  { v with node := fun p => if p ∈ ps then (v.node p).map (Node.withParent parent) else v.node p }

@[simp] theorem node_relinkAll (v : View) (ps : List PageId) (parent : Option PageId) (p : PageId) :
    (v.relinkAll ps parent).node p =
      if p ∈ ps then (v.node p).map (Node.withParent parent) else v.node p := rfl

theorem keeps_relinkAll (v : View) (ps : List PageId) (parent : Option PageId) :
    v.Keeps (v.relinkAll ps parent) :=
  ⟨rfl, rfl, rfl, rfl, rfl, rfl, Nat.le_refl _, id⟩

/-- The next page is not one of the pages that are there. -/
theorem HasPage.ne_next {p q : PageId} (hp : v.HasPage p) (hq : q.number.toNat = v.pageCount) :
    p ≠ q := by
  rintro rfl
  exact absurd hp.2 (by omega)

/-- The nodes stay as they are while records are written. -/
theorem Shaped.addRecord {h : Nat} {s : Shape h} (hs : v.Shaped s) (r : Record) :
    (v.addRecord r).Shaped s :=
  ⟨hs.root_eq, hs.stored, hs.nodup, hs.ascending, hs.occupied, hs.keys_ok⟩

theorem Shaped.setRecord {h : Nat} {s : Shape h} (hs : v.Shaped s) (id : RecordId)
    (r : Option Record) : (v.setRecord id r).Shaped s :=
  ⟨hs.root_eq, hs.stored, hs.nodup, hs.ascending, hs.occupied, hs.keys_ok⟩

end View

namespace Tree

theorem page_withParent (n : Node) (parent : Option PageId) :
    (n.withParent parent).page = n.page := by
  cases n <;> rfl

/-- Linking several nodes to another parent. -/
theorem turns_relinkAll {v : View} {ps : List PageId} (parent : Option PageId) (hn : ps.Nodup)
    (hps : ∀ p ∈ ps, ∃ n, v.node p = some n) :
    Turns (relinkAll ps parent) v () (v.relinkAll ps parent) := by
  induction ps generalizing v with
  | nil =>
    have hnil : v.relinkAll [] parent = v := by simp [View.relinkAll]
    rw [hnil]
    exact turns_pure ()
  | cons p ps ih =>
    refine turns_of_valid fun hv => ?_
    obtain ⟨hp, hn⟩ := List.nodup_cons.1 hn
    obtain ⟨n, hnode⟩ := hps p List.mem_cons_self
    have hpage : (n.withParent parent).page = p := by
      rw [page_withParent, hv.page_eq hnode]
    -- the nodes are on distinct pages, so that it does not matter in which order they are written
    have hrest : (v.put (n.withParent parent)).relinkAll ps parent =
        v.relinkAll (p :: ps) parent := by
      unfold View.relinkAll View.put
      congr 1
      funext q
      simp only [hpage]
      by_cases hq : q = p
      · subst hq
        rw [if_neg hp, if_pos List.mem_cons_self, Function.update_self, hnode]
        rfl
      · rw [Function.update_of_ne hq]
        simp [hq]
    have hps' : ∀ q ∈ ps, ∃ m, (v.put (n.withParent parent)).node q = some m := by
      intro q hq
      have hne : q ≠ (n.withParent parent).page := by
        rintro rfl
        rw [hpage] at hq
        exact hp hq
      obtain ⟨m, hm⟩ := hps q (List.mem_cons_of_mem _ hq)
      exact ⟨m, (Function.update_of_ne hne ..).trans hm⟩
    rw [← hrest]
    exact (turns_relink hnode parent).bind (ih hn hps')

end Tree

namespace Shape

variable {h : Nat} {look look' : PageId → Option Node} {keyType : FieldType}
  {parent parent' : Option PageId}

theorem withParent_node (s : Shape h) :
    (s.node keyType parent).withParent parent' = s.node keyType parent' := by
  cases h <;> rfl

/-- A tree whose root has been linked to another parent. -/
theorem Stored.withParent {s : Shape h} (hs : s.Stored look keyType parent)
    (hroot : look' s.page = (look s.page).map (Node.withParent parent'))
    (hbelow : ∀ p ∈ s.pagesBelow, look' p = look p) : s.Stored look' keyType parent' := by
  refine ⟨?_, hs.2.congr hbelow⟩
  rw [hroot, hs.1, Option.map_some, withParent_node]

/-- Trees side by side have no page in common. -/
theorem eq_of_mem_pages {kids : List (Shape h)} (hn : (kids.flatMap pages).Nodup) {c d : Shape h}
    (hc : c ∈ kids) (hd : d ∈ kids) {p : PageId} (hpc : p ∈ c.pages) (hpd : p ∈ d.pages) :
    c = d := by
  by_contra hne
  obtain ⟨-, hpair⟩ := List.nodup_flatMap.1 hn
  have : Std.Symm (Function.onFun List.Disjoint (pages (h := h))) :=
    ⟨fun _ _ hdis p hp hp' => hdis hp' hp⟩
  exact hpair.forall hc hd hne hpc hpd

theorem page_not_mem_pagesBelow {s : Shape h} (hn : s.pages.Nodup) : s.page ∉ s.pagesBelow := by
  rw [pages_eq, List.nodup_cons] at hn
  exact hn.1

theorem nodup_pagesBelow {s : Shape h} (hn : s.pages.Nodup) : s.pagesBelow.Nodup := by
  rw [pages_eq, List.nodup_cons] at hn
  exact hn.2

theorem mem_pagesBelow_of_mem_kids {s : Shape (h + 1)} {c : Shape h} (hc : c ∈ Fork.kids s)
    {p : PageId} (hp : p ∈ c.pagesBelow) : p ∈ s.pagesBelow :=
  List.mem_flatMap.2 ⟨c, hc, c.pagesBelow_subset hp⟩

theorem page_mem_pagesBelow {s : Shape (h + 1)} {c : Shape h} (hc : c ∈ Fork.kids s) :
    c.page ∈ s.pagesBelow :=
  List.mem_flatMap.2 ⟨c, hc, c.page_mem_pages⟩

theorem pagesBelow_eq_append {s left right : Shape (h + 1)}
    (hkids : Fork.kids s = Fork.kids left ++ Fork.kids right) :
    s.pagesBelow = left.pagesBelow ++ right.pagesBelow := by
  show (Fork.kids s).flatMap pages = _
  rw [hkids, List.flatMap_append]
  rfl

theorem nodup_pages_of_mem {kids : List (Shape h)} (hn : (kids.flatMap pages).Nodup) {c : Shape h}
    (hc : c ∈ kids) : c.pages.Nodup :=
  (List.nodup_flatMap.1 hn).1 c hc

theorem nodup_map_page {kids : List (Shape h)} (hn : (kids.flatMap pages).Nodup) :
    (kids.map page).Nodup := by
  refine hn.sublist ?_
  clear hn
  induction kids with
  | nil => exact List.Sublist.slnil
  | cons c kids ih =>
    rw [List.map_cons, List.flatMap_cons, pages_eq, List.cons_append]
    exact (ih.trans (List.sublist_append_right _ _)).cons_cons _

/-- Trees side by side whose roots have been linked to another parent. -/
theorem stored_relinked {kids : List (Shape h)} (hn : (kids.flatMap pages).Nodup)
    (hkids : ∀ c ∈ kids, c.Stored look keyType parent)
    (hroot : ∀ c ∈ kids, look' c.page = (look c.page).map (Node.withParent parent'))
    (hbelow : ∀ c ∈ kids, ∀ p ∈ c.pagesBelow, p ∉ kids.map page → look' p = look p) :
    ∀ c ∈ kids, c.Stored look' keyType parent' := by
  intro c hc
  refine (hkids c hc).withParent (hroot c hc) fun p hp => hbelow c hc p hp fun hmem => ?_
  obtain ⟨d, hd, rfl⟩ := List.mem_map.1 hmem
  obtain rfl := eq_of_mem_pages hn hc hd (c.pagesBelow_subset hp) d.page_mem_pages
  exact page_not_mem_pagesBelow (nodup_pages_of_mem hn hc) hp

/-- A node whose keys can stand on a page, and which is not too large, has a page. -/
theorem encodable_node {v : View} {s : Shape h} (hkeys : ∀ m ∈ s.line, v.KeyOk m.key)
    (hsize : s.size ≤ most h) : (s.node v.keyType parent).Encodable := by
  cases h with
  | zero =>
    refine ⟨?_, fun k hk => ?_, ?_⟩
    · show ((Twig.entries s).map Prod.fst).length ≤ fanout
      rw [List.length_map]
      exact hsize
    · obtain ⟨e, he, rfl⟩ := List.mem_map.1 hk
      exact hkeys _ (List.mem_map_of_mem he)
    · show ((Twig.entries s).map Prod.snd).length = ((Twig.entries s).map Prod.fst).length
      rw [List.length_map, List.length_map]
  | succ h =>
    have hlen := (Fork.length_kids s)
    have hsize : (Fork.kids s).length ≤ fanout + 1 := hsize
    refine ⟨?_, fun k hk => ?_, ?_⟩
    · show (Fork.keys s).length ≤ fanout
      omega
    · exact hkeys _ ((sublist_separators s).subset (List.mem_map_of_mem hk))
    · show ((Fork.kids s).map page).length = (Fork.keys s).length + 1
      rw [List.length_map, hlen]

end Shape
end RecordIndex
