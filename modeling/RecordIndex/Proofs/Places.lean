import Mathlib.Data.List.Forall2
import RecordIndex.Proofs.KeySearch
import RecordIndex.Proofs.Surgery
import RecordIndex.Proofs.View
import RecordIndex.Tree.Audit

/-!
# What grows at a place

The check compares each node with its place: the page, parent, depth and range that the nodes above
leave to it.

* `Place.check_eq_ok_iff`: what a node is that fits its place. If its keys ascend, then it is enough
  to look at the first and the last of them.
* `Place.Grows v p s`: the tree `s` is at a place, and fits it all the way down.
* `Place.Bears v p m`: a tree with the measures `m` grows there. For a leaf it only depends on the
  leaf (`Place.bears_leaf_iff`), and for an internal node on the places of its children
  (`Place.bears_internal_iff`).
-/

namespace RecordIndex

/-- A leaf whose counts agree is one of a shape. -/
theorem Shape.exists_leaf {l : Leaf} (hcounts : (Node.leaf l).CountsAgree) : ∃ s : Shape 0,
    s.page = l.page ∧ s.node l.keyType l.parent = .leaf l ∧ s.entries = l.keys.zip l.records := by
  have hlen : l.records.length = l.keys.length := hcounts
  refine ⟨.twig l.page (l.keys.zip l.records), rfl, ?_, rfl⟩
  show Node.leaf ⟨_, _, _, (l.keys.zip l.records).map Prod.fst,
    (l.keys.zip l.records).map Prod.snd⟩ = _
  rw [List.map_fst_zip (Nat.le_of_eq hlen.symm), List.map_snd_zip (Nat.le_of_eq hlen)]
  rfl

/-- The first child of a node whose counts agree, and the others behind their separators. -/
theorem Internal.exists_row {n : Internal} (hcounts : (Node.internal n).CountsAgree) :
    ∃ (q : PageId) (rest : List (Field × PageId)), rest.map Prod.fst = n.keys ∧
      q :: rest.map Prod.snd = n.children := by
  have hcounts : n.children.length = n.keys.length + 1 := hcounts
  obtain ⟨q, qs, hqs⟩ := List.exists_cons_of_length_pos
    (Nat.lt_of_lt_of_eq n.keys.length.succ_pos hcounts.symm)
  rw [hqs, List.length_cons] at hcounts
  have hlen : qs.length = n.keys.length := Nat.succ.inj hcounts
  refine ⟨q, n.keys.zip qs, List.map_fst_zip (Nat.le_of_eq hlen.symm), ?_⟩
  rw [List.map_snd_zip (Nat.le_of_eq hlen), hqs]

/-! ### Comparing a node with its place -/

section Check

variable {keys : List Field}

theorem ensure_eq_ok_iff {rule : Prop} [Decidable rule] {broken : Violation} :
    ensure rule broken = .ok () ↔ rule := by
  unfold ensure
  split_ifs with h <;> simp [h]

theorem then_eq_ok_iff {x y : Except Error Unit} :
    (do x; y) = .ok () ↔ x = .ok () ∧ y = .ok () := by
  cases x with
  | error e => simp [bind, Except.bind]
  | ok u => simp [bind, Except.bind]

theorem checkOrder_eq_ok_iff {page : PageId} :
    checkOrder page keys = .ok () ↔ keys.Pairwise (· < ·) := by
  rw [← Keys.disorder?_eq_none_iff, checkOrder]
  cases Keys.disorder? keys <;> simp

/-- If the keys ascend, then it is enough to look at the first of them. -/
theorem checkLower_eq_ok_iff {page : PageId} {lower : Option Field}
    (hkeys : keys.Pairwise (· < ·)) :
    checkLower page lower keys = .ok () ↔ ∀ k ∈ keys, ∀ l ∈ lower, l ≤ k := by
  cases lower with
  | none => simp [checkLower]
  | some l =>
    cases keys with
    | nil => simp [checkLower]
    | cons k keys =>
      have hcheck : checkLower page (some l) (k :: keys) =
        ensure (¬ k < l) (.belowSeparator page k l) := rfl
      rw [hcheck, ensure_eq_ok_iff, not_lt]
      constructor
      · intro hle k' hk' l' hl'
        cases hl'
        rcases List.mem_cons.1 hk' with rfl | hk'
        · exact hle
        · exact le_trans hle (le_of_lt ((List.pairwise_cons.1 hkeys).1 k' hk'))
      · intro h
        exact h k List.mem_cons_self l rfl

/-- If the keys ascend, then it is enough to look at the last of them. -/
theorem checkUpper_eq_ok_iff {page : PageId} {upper : Option Field}
    (hkeys : keys.Pairwise (· < ·)) :
    checkUpper page upper keys = .ok () ↔ ∀ k ∈ keys, ∀ u ∈ upper, k < u := by
  cases upper with
  | none => simp [checkUpper]
  | some u =>
    rcases List.eq_nil_or_concat keys with rfl | ⟨init, k, rfl⟩
    · simp [checkUpper]
    · rw [List.concat_eq_append] at hkeys ⊢
      have hcheck : checkUpper page (some u) (init ++ [k]) =
          ensure (k < u) (.notBelowSeparator page k u) := by
        simp [checkUpper]
      rw [hcheck, ensure_eq_ok_iff]
      constructor
      · intro hlt k' hk' u' hu'
        cases hu'
        rcases List.mem_append.1 hk' with hk' | hk'
        · exact lt_trans ((List.pairwise_append.1 hkeys).2.2 k' hk' k (List.mem_singleton.2 rfl))
            hlt
        · rw [List.mem_singleton.1 hk']
          exact hlt
      · intro h
        exact h k (List.mem_append_right _ (List.mem_singleton.2 rfl)) u rfl

/-- The node is neither too full nor too empty. -/
def Node.Occupied (isRoot : Bool) : Node → Prop
  | .leaf l => Shape.least isRoot 0 ≤ l.size ∧ l.size ≤ Shape.most 0
  | .internal n => Shape.least isRoot 1 ≤ n.size ∧ n.size ≤ Shape.most 1

theorem checkOccupancy_eq_ok_iff {isRoot : Bool} {n : Node} :
    checkOccupancy isRoot n = .ok () ↔ n.Occupied isRoot := by
  cases n <;> exact ensure_eq_ok_iff

theorem Place.check_eq_ok_iff {place : Place} {keyType : FieldType} {n : Node} :
    place.check keyType n = .ok () ↔ n.parent = place.parent ∧ n.keyType = keyType ∧
      n.keys.Pairwise (· < ·) ∧ (∀ k ∈ n.keys, k.Within place.lower place.upper) ∧
      n.Occupied place.parent.isNone := by
  rw [Place.check, then_eq_ok_iff, then_eq_ok_iff, then_eq_ok_iff, then_eq_ok_iff, then_eq_ok_iff,
    ensure_eq_ok_iff, ensure_eq_ok_iff, checkOrder_eq_ok_iff, checkOccupancy_eq_ok_iff]
  refine and_congr_right fun _ => and_congr_right fun _ => and_congr_right fun hkeys => ?_
  rw [checkLower_eq_ok_iff hkeys, checkUpper_eq_ok_iff hkeys, ← and_assoc, ← forall₂_and]
  exact Iff.rfl

end Check

/-! ### What grows at a place -/

theorem Fork.ranges_and_iff {α : Type} {p : Option Field → Option Field → α → Prop} {q : α → Prop}
    {lower upper : Option Field} {c : α} {rest : List (Field × α)} :
    Ranges (fun lower upper d => p lower upper d ∧ q d) lower c rest upper ↔
      Ranges p lower c rest upper ∧ ∀ d ∈ c :: rest.map Prod.snd, q d := by
  induction rest generalizing lower c with
  | nil => simp [Ranges]
  | cons e rest ih =>
    simp only [Ranges, ih, List.map_cons, List.forall_mem_cons]
    exact and_and_and_comm

/-- The measures of a tree with its root at a certain depth. -/
def Shape.measures {h : Nat} (depth : Nat) (s : Shape h) : TreeMeasures :=
  ⟨depth + h, s.pages.length, s.leaves, s.entries.length⟩

theorem Shape.measures_succ {h : Nat} (depth : Nat) (s : Shape (h + 1)) {ms : List TreeMeasures}
    (hms : ms = (Fork.kids s).map (measures (depth + 1))) : s.measures depth =
      ⟨depth + (h + 1), 1 + (ms.map (·.nodes)).sum, (ms.map (·.leaves)).sum,
        (ms.map (·.records)).sum⟩ := by
  have hpages : s.pages.length = 1 + (ms.map (·.nodes)).sum := by
    show (s.page :: (Fork.kids s).flatMap pages).length = _
    rw [List.length_cons, List.length_flatMap, hms, List.map_map, Nat.add_comm]
    rfl
  have hleaves : s.leaves = (ms.map (·.leaves)).sum := by
    rw [hms, List.map_map]
    rfl
  have hentries : s.entries.length = (ms.map (·.records)).sum := by
    show ((Fork.kids s).flatMap entries).length = _
    rw [List.length_flatMap, hms, List.map_map]
    rfl
  rw [measures, hpages, hleaves, hentries]

namespace Place

variable {v : View} {p : Place} {h : Nat} {m : TreeMeasures}

/-- The tree `s` grows at the place. -/
structure Grows (v : View) (p : Place) (s : Shape h) : Prop where
  page_eq : s.page = p.page
  ranged : s.Ranged p.lower p.upper
  stored : s.Stored v.node v.keyType p.parent
  occupied : s.Occupied p.parent.isNone
  resolved : ∀ e ∈ s.entries, ∃ r, v.record e.2 = some r ∧ r.key = e.1

/-- A tree with the measures `m` grows at the place. -/
def Bears (v : View) (p : Place) (m : TreeMeasures) : Prop :=
  ∃ (h : Nat) (s : Shape h), p.Grows v s ∧ s.measures p.depth = m

/-- The places of a row of children, with the separators between them. -/
def row (parent : PageId) (depth : Nat) :
    Option Field → PageId → List (Field × PageId) → Option Field → List Place
  | lower, q, [], upper => [⟨q, some parent, depth, lower, upper⟩]
  | lower, q, (k, q') :: rest, upper =>
    ⟨q, some parent, depth, lower, some k⟩ :: row parent depth (some k) q' rest upper

theorem children_eq {n : Internal} {q : PageId} {rest : List (Field × PageId)}
    (hkeys : n.keys = rest.map Prod.fst) (hchildren : n.children = q :: rest.map Prod.snd) :
    p.children n = row n.page (p.depth + 1) p.lower q rest p.upper := by
  have hrow : ∀ (rest : List (Field × PageId)) (q : PageId) (lower : Option Field),
      ((q :: rest.map Prod.snd).zip ((lower :: (rest.map Prod.fst).map some).zip
        ((rest.map Prod.fst).map some ++ [p.upper]))).map
          (fun e => (⟨e.1, some n.page, p.depth + 1, e.2.1, e.2.2⟩ : Place)) =
        row n.page (p.depth + 1) lower q rest p.upper := by
    intro rest
    induction rest with
    | nil => exact fun _ _ => rfl
    | cons e rest ih =>
      intro q lower
      rw [row, ← ih]
      rfl
  rw [children, hkeys, hchildren]
  exact hrow rest q p.lower

/-- The trees of a row of children grow at their places. -/
theorem forall₂_bears {parent : PageId} {depth : Nat} {lower upper : Option Field} {c : Shape h}
    {rest : List (Field × Shape h)}
    (hr : Fork.Ranges (fun lower upper d =>
      Grows v ⟨d.page, some parent, depth, lower, upper⟩ d) lower c rest upper) :
    List.Forall₂ (Bears v) (row parent depth lower c.page (rest.map (Prod.map id Shape.page)) upper)
      ((c :: rest.map Prod.snd).map (Shape.measures depth)) := by
  induction rest generalizing lower c with
  | nil => exact .cons ⟨h, c, hr, rfl⟩ .nil
  | cons e rest ih => exact .cons ⟨h, c, hr.1, rfl⟩ (ih hr.2)

/-- What grows at the places of a row of children is a row of trees, if all leaves are at one
depth. -/
theorem exists_ranges {parent : PageId} {depth : Nat} {lower upper : Option Field} {q : PageId}
    {rest : List (Field × PageId)} {ms : List TreeMeasures}
    (hms : List.Forall₂ (Bears v) (row parent depth lower q rest upper) ms)
    (hheight : ∀ m ∈ ms, m.height = depth + h) :
    ∃ (c : Shape h) (kids : List (Field × Shape h)), c.page = q ∧
      kids.map (Prod.map id Shape.page) = rest ∧
      Fork.Ranges (fun lower upper d => Grows v ⟨d.page, some parent, depth, lower, upper⟩ d)
        lower c kids upper ∧
      ms = (c :: kids.map Prod.snd).map (Shape.measures depth) := by
  induction rest generalizing lower q ms with
  | nil =>
    obtain ⟨m, ms, ⟨h', c, hc, rfl⟩, hnil, rfl⟩ := List.forall₂_cons_left_iff.1 hms
    obtain rfl := List.forall₂_nil_left_iff.1 hnil
    obtain rfl : h' = h := Nat.add_left_cancel (hheight _ List.mem_cons_self)
    obtain rfl : c.page = q := hc.page_eq
    exact ⟨c, [], rfl, rfl, hc, rfl⟩
  | cons e rest ih =>
    obtain ⟨m, ms, ⟨h', c, hc, rfl⟩, hrest, rfl⟩ := List.forall₂_cons_left_iff.1 hms
    obtain rfl : h' = h := Nat.add_left_cancel (hheight _ List.mem_cons_self)
    obtain rfl : c.page = q := hc.page_eq
    obtain ⟨d, kids, hd, hkids, hr, rfl⟩ := ih hrest fun m hm =>
      hheight m (List.mem_cons_of_mem _ hm)
    refine ⟨c, (e.1, d) :: kids, rfl, ?_, ⟨hc, hr⟩, rfl⟩
    rw [List.map_cons, hkids, Prod.map_apply, hd]
    rfl

theorem exists_height {parent : PageId} {depth : Nat} {lower upper : Option Field} {q : PageId}
    {rest : List (Field × PageId)} {ms : List TreeMeasures}
    (hms : List.Forall₂ (Bears v) (row parent depth lower q rest upper) ms) :
    ∃ m ∈ ms, ∃ h, m.height = depth + h := by
  cases rest with
  | nil =>
    obtain ⟨m, ms, ⟨h, c, -, rfl⟩, -, rfl⟩ := List.forall₂_cons_left_iff.1 hms
    exact ⟨_, List.mem_cons_self, h, rfl⟩
  | cons e rest =>
    obtain ⟨m, ms, ⟨h, c, -, rfl⟩, -, rfl⟩ := List.forall₂_cons_left_iff.1 hms
    exact ⟨_, List.mem_cons_self, h, rfl⟩

theorem Bears.exists_node (h : p.Bears v m) : ∃ n, v.node p.page = some n := by
  obtain ⟨h, s, hs, -⟩ := h
  rw [← hs.page_eq]
  exact ⟨_, hs.stored.1⟩

/-- A node of a shape fits its place exactly if its keys and its size do. -/
theorem check_node_iff {keyType : FieldType} {s : Shape h} :
    p.check keyType (s.node keyType p.parent) = .ok () ↔
      (s.node keyType p.parent).keys.Pairwise (· < ·) ∧
      (∀ k ∈ (s.node keyType p.parent).keys, k.Within p.lower p.upper) ∧
      Shape.least p.parent.isNone h ≤ s.size ∧ s.size ≤ Shape.most h := by
  have htype : (s.node keyType p.parent).keyType = keyType := by cases h <;> rfl
  have hoccupied : (s.node keyType p.parent).Occupied p.parent.isNone ↔
      Shape.least p.parent.isNone h ≤ s.size ∧ s.size ≤ Shape.most h := by
    cases h with
    | zero =>
      have hsize : (s.leaf keyType p.parent).size = s.size := s.size_leaf
      rw [← hsize]
      exact Iff.rfl
    | succ h =>
      have hsize : (s.internal keyType p.parent).size = s.size := s.size_internal
      rw [← hsize]
      exact Iff.rfl
  rw [check_eq_ok_iff, Shape.parent_node, htype, hoccupied]
  simp only [true_and]

theorem grows_zero_iff {s : Shape 0} : p.Grows v s ↔ s.page = p.page ∧
    v.node s.page = some (s.node v.keyType p.parent) ∧
    p.check v.keyType (s.node v.keyType p.parent) = .ok () ∧
    ∀ e ∈ s.entries, ∃ r, v.record e.2 = some r ∧ r.key = e.1 := by
  rw [check_node_iff]
  constructor
  · intro hs
    exact ⟨hs.page_eq, hs.stored.1, ⟨hs.ranged.1, hs.ranged.2, hs.occupied.1⟩, hs.resolved⟩
  · rintro ⟨hpage, hnode, ⟨hkeys, hwithin, hsize⟩, hresolved⟩
    exact ⟨hpage, ⟨hkeys, hwithin⟩, ⟨hnode, trivial⟩, ⟨hsize, trivial⟩, hresolved⟩

theorem grows_succ_iff {s : Shape (h + 1)} : p.Grows v s ↔ s.page = p.page ∧
    v.node s.page = some (s.node v.keyType p.parent) ∧
    p.check v.keyType (s.node v.keyType p.parent) = .ok () ∧
    Fork.Ranges (fun lower upper d =>
      Grows v ⟨d.page, some s.page, p.depth + 1, lower, upper⟩ d)
      p.lower (Fork.first s) (Fork.rest s) p.upper := by
  have hgrows : (fun lower upper (d : Shape h) =>
      Grows v ⟨d.page, some s.page, p.depth + 1, lower, upper⟩ d) =
        fun lower upper d => d.Ranged lower upper ∧ d.Stored v.node v.keyType (some s.page) ∧
          d.Occupied false ∧ ∀ e ∈ d.entries, ∃ r, v.record e.2 = some r ∧ r.key = e.1 := by
    funext lower upper d
    refine propext ⟨fun hd => ⟨hd.ranged, hd.stored, hd.occupied, hd.resolved⟩, ?_⟩
    rintro ⟨hranged, hstored, hoccupied, hresolved⟩
    exact ⟨rfl, hranged, hstored, hoccupied, hresolved⟩
  rw [check_node_iff, hgrows, Fork.ranges_and_iff]
  constructor
  · intro hs
    refine ⟨hs.page_eq, hs.stored.1, ⟨hs.ranged.1, hs.ranged.2.1, hs.occupied.1⟩, hs.ranged.2.2,
      fun d hd => ⟨hs.stored.2 d hd, hs.occupied.2 d hd, fun e he => ?_⟩⟩
    exact hs.resolved e (List.mem_flatMap.2 ⟨d, hd, he⟩)
  · rintro ⟨hpage, hnode, ⟨hkeys, hwithin, hsize⟩, hranges, hkids⟩
    refine ⟨hpage, ⟨hkeys, hwithin, hranges⟩, ⟨hnode, fun d hd => (hkids d hd).1⟩,
      ⟨hsize, fun d hd => (hkids d hd).2.1⟩, fun e he => ?_⟩
    obtain ⟨d, hd, he⟩ := List.mem_flatMap.1 he
    exact (hkids d hd).2.2 e he

/-- What grows where a leaf is. -/
theorem bears_leaf_iff (hv : v.Valid) {l : Leaf} (hl : v.node p.page = some (.leaf l)) :
    p.Bears v m ↔ p.check v.keyType (.leaf l) = .ok () ∧
      (∀ e ∈ l.keys.zip l.records, ∃ r, v.record e.2 = some r ∧ r.key = e.1) ∧
      m = ⟨p.depth, 1, 1, l.size⟩ := by
  constructor
  · rintro ⟨h, s, hs, rfl⟩
    have hnode := hs.stored.1
    rw [hs.page_eq, hl] at hnode
    cases h with
    | succ h => cases hnode
    | zero =>
      obtain ⟨-, -, hcheck, hresolved⟩ := grows_zero_iff.1 hs
      have hleaf : l = s.leaf v.keyType p.parent := Node.leaf.inj (Option.some.inj hnode)
      have hzip : l.keys.zip l.records = s.entries := by
        rw [hleaf]
        exact (List.zip_of_prod rfl rfl).symm
      rw [← Option.some.inj hnode] at hcheck
      rw [hzip]
      refine ⟨hcheck, hresolved, ?_⟩
      rw [hleaf, Shape.size_leaf]
      rfl
  · rintro ⟨hcheck, hresolved, rfl⟩
    obtain ⟨hparent, htype, -⟩ := check_eq_ok_iff.1 hcheck
    obtain ⟨s, hpage, hnode, hentries⟩ := Shape.exists_leaf (hv.encodable hl).counts
    have hpage' : l.page = p.page := hv.page_eq hl
    rw [show l.keyType = v.keyType from htype, show l.parent = p.parent from hparent] at hnode
    refine ⟨0, s, grows_zero_iff.2 ⟨hpage.trans hpage', ?_, ?_, ?_⟩, ?_⟩
    · rw [hpage, hpage', hl, hnode]
    · rw [hnode]
      exact hcheck
    · rw [hentries]
      exact hresolved
    · have hsize : s.entries.length = l.size := by
        rw [hentries, List.length_zip, Leaf.size, show l.records.length = l.keys.length from
          (hv.encodable hl).counts, Nat.min_self]
      rw [Shape.measures, hsize]
      rfl

/-- At the places of the children of a tree there are its subtrees. -/
theorem Grows.forall₂_children {s : Shape (h + 1)} (hs : p.Grows v s) :
    List.Forall₂ (Bears v) (p.children (s.internal v.keyType p.parent))
      ((Fork.kids s).map (Shape.measures (p.depth + 1))) := by
  obtain ⟨-, -, -, hranges⟩ := grows_succ_iff.1 hs
  have hkeys : (s.internal v.keyType p.parent).keys =
      ((Fork.rest s).map (Prod.map id Shape.page)).map Prod.fst := by
    rw [List.map_map]
    rfl
  have hchildren : (s.internal v.keyType p.parent).children = (Fork.first s).page ::
      ((Fork.rest s).map (Prod.map id Shape.page)).map Prod.snd := by
    rw [List.map_map]
    show ((Fork.first s) :: (Fork.rest s).map Prod.snd).map Shape.page = _
    rw [List.map_cons, List.map_map]
    rfl
  rw [children_eq hkeys hchildren]
  exact forall₂_bears hranges

/-- Trees at the places of the children of a node that fits its place make a tree there, if all
leaves are at one depth. -/
theorem exists_grows_of_children (hv : v.Valid) {n : Internal}
    (hn : v.node p.page = some (.internal n)) (hcheck : p.check v.keyType (.internal n) = .ok ())
    {ms : List TreeMeasures} {height : Nat} (hms : List.Forall₂ (Bears v) (p.children n) ms)
    (hheight : ∀ m ∈ ms, m.height = height) :
    ∃ (h : Nat) (s : Shape (h + 1)), p.Grows v s ∧ height = p.depth + (h + 1) ∧
      ms = (Fork.kids s).map (Shape.measures (p.depth + 1)) := by
  obtain ⟨hparent, htype, -⟩ := check_eq_ok_iff.1 hcheck
  have hcounts := (hv.encodable hn).counts
  have hpage : n.page = p.page := hv.page_eq hn
  obtain ⟨q, rest, hfst, hrow⟩ := Internal.exists_row hcounts
  rw [children_eq hfst.symm hrow.symm] at hms
  -- the first child says how high all of them are
  obtain ⟨m, hm, h, hh⟩ := exists_height hms
  obtain ⟨c, kids, hc, hkids, hranges, rfl⟩ := exists_ranges hms fun m' hm' =>
    (hheight m' hm').trans ((hheight m hm).symm.trans hh)
  have hkeys : kids.map Prod.fst = n.keys := by
    rw [← hfst, ← hkids, List.map_map]
    rfl
  have hchildren : (c :: kids.map Prod.snd).map Shape.page = n.children := by
    rw [← hrow, ← hkids, List.map_cons, List.map_map, List.map_map, hc]
    rfl
  have hnode : (Shape.inner p.page c kids).node v.keyType p.parent = .internal n := by
    show Node.internal ⟨p.page, p.parent, v.keyType, kids.map Prod.fst,
      (c :: kids.map Prod.snd).map Shape.page⟩ = _
    rw [hkeys, hchildren, ← hpage, show p.parent = n.parent from hparent.symm,
      show v.keyType = n.keyType from htype.symm]
  refine ⟨h, Shape.inner p.page c kids, grows_succ_iff.2 ⟨rfl, ?_, ?_, ?_⟩, ?_, rfl⟩
  · rw [hnode]
    exact hn
  · rw [hnode]
    exact hcheck
  · rw [← hpage]
    exact hranges
  · rw [← hheight m hm, hh]
    omega

/-- What grows where an internal node is grows at the places of its children. -/
theorem bears_internal_iff (hv : v.Valid) {n : Internal} (hn : v.node p.page = some (.internal n)) :
    p.Bears v m ↔ p.check v.keyType (.internal n) = .ok () ∧ ∃ ms : List TreeMeasures,
      List.Forall₂ (Bears v) (p.children n) ms ∧ (∀ m' ∈ ms, m'.height = m.height) ∧
      m.nodes = 1 + (ms.map (·.nodes)).sum ∧ m.leaves = (ms.map (·.leaves)).sum ∧
      m.records = (ms.map (·.records)).sum := by
  constructor
  · rintro ⟨h, s, hs, rfl⟩
    have hnode := hs.stored.1
    rw [hs.page_eq, hn] at hnode
    cases h with
    | zero => cases hnode
    | succ h =>
      obtain ⟨-, -, hcheck, -⟩ := grows_succ_iff.1 hs
      obtain rfl : n = s.internal v.keyType p.parent := Node.internal.inj (Option.some.inj hnode)
      rw [s.measures_succ p.depth rfl]
      refine ⟨hcheck, _, hs.forall₂_children, fun m' hm' => ?_, rfl, rfl, rfl⟩
      obtain ⟨c, -, rfl⟩ := List.mem_map.1 hm'
      show p.depth + 1 + h = p.depth + (h + 1)
      omega
  · rintro ⟨hcheck, ms, hms, hheight, hnodes, hleaves, hrecords⟩
    obtain ⟨h, s, hs, hh, hkids⟩ := exists_grows_of_children hv hn hcheck hms hheight
    refine ⟨h + 1, s, hs, ?_⟩
    rw [Shape.measures_succ p.depth s hkids, ← hh, ← hnodes, ← hleaves, ← hrecords]

theorem children_ne_nil (hv : v.Valid) {n : Internal} (hn : v.node p.page = some (.internal n)) :
    p.children n ≠ [] := by
  have hcounts : n.children.length = n.keys.length + 1 := (hv.encodable hn).counts
  have hlen : (p.children n).length = n.keys.length + 1 := by simp [children, hcounts]
  intro hnil
  rw [hnil] at hlen
  cases hlen

end Place

end RecordIndex
