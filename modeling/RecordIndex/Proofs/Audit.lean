import Mathlib.Data.List.Perm.Subperm
import RecordIndex.Proofs.Descent
import RecordIndex.Proofs.Places

/-!
# The check is sound and complete

The check only compares each node with its place. That is enough: the tree is well-formed exactly if
the check finds nothing, and then it answers the measures of the tree.

* `Shape.nodup_pages`: no page is met twice, since each is known by the first key on it and the keys
  ascend from left to right.
* `Tree.Surveys v queue sum m`: what the walk has to find at the places in its queue. One step keeps
  it (`Tree.surveys_leaf_iff`, `Tree.surveys_internal_iff`), and in the end nothing is left to find.
* `Tree.audit_eq_ok_iff`: the check ends well exactly on a tree with a shape.
-/

namespace RecordIndex

/-! ### Pages are distinct -/

/-- The first separator or entry of a node. -/
def Node.mark? : Node → Option Mark
  | .leaf l => (l.keys.zip l.records).head?.map fun e => .entry e.1 e.2
  | .internal n => n.keys.head?.map .separator

namespace Shape

variable {h : Nat} {look : PageId → Option Node} {keyType : FieldType} {parent : Option PageId}

/-- The separators of the root, and what is on the lines of the children. -/
theorem line_perm (s : Shape (h + 1)) :
    s.line.Perm ((Fork.keys s).map .separator ++ (Fork.kids s).flatMap line) := by
  obtain ⟨c, rest, hs⟩ := exists_inner s
  have hrest : (rest.flatMap fun e => Mark.separator e.1 :: e.2.line).Perm
      (rest.map (fun e => Mark.separator e.1) ++ rest.flatMap fun e => e.2.line) := by
    clear hs
    induction rest with
    | nil => exact .refl _
    | cons e rest ih =>
      refine List.Perm.cons _ ?_
      rw [List.flatMap_cons]
      exact (ih.append_left _).trans (List.perm_append_comm_assoc _ _ _)
  have hkeys : (Fork.keys (inner s.page c rest)).map Mark.separator =
      rest.map fun e => Mark.separator e.1 := List.map_map
  have hkids : (Fork.kids (inner s.page c rest)).flatMap line =
      c.line ++ rest.flatMap fun e => e.2.line := by
    show (c :: rest.map Prod.snd).flatMap line = _
    rw [List.flatMap_cons, List.flatMap_map]
  rw [hs, line_inner, hkeys, hkids]
  exact (hrest.append_left _).trans (List.perm_append_comm_assoc _ _ _)

theorem subperm_flatMap {α β : Type} {f g : α → List β} {l : List α}
    (h : ∀ a ∈ l, (f a).Subperm (g a)) : (l.flatMap f).Subperm (l.flatMap g) := by
  induction l with
  | nil => exact List.Subperm.refl _
  | cons a l ih =>
    rw [List.flatMap_cons, List.flatMap_cons]
    exact (h a List.mem_cons_self).append (ih fun b hb => h b (List.mem_cons_of_mem _ hb))

/-- The first separator or entry of each node is somewhere on the line. -/
theorem subperm_marks {s : Shape h} (hs : s.Stored look keyType parent) (hf : s.Occupied false) :
    (s.pages.map fun p => (look p).bind Node.mark?).Subperm (s.line.map some) := by
  induction h generalizing parent with
  | zero =>
    obtain ⟨es, heq⟩ := s.exists_twig
    rw [heq] at hs hf ⊢
    have hlen : 3 ≤ es.length := hf.1.1
    obtain ⟨e, es, rfl⟩ := List.exists_cons_of_length_pos (Nat.lt_of_lt_of_le (by decide) hlen)
    have hmark : (look s.page).bind Node.mark? = some (.entry e.1 e.2) := by
      rw [show look s.page = _ from hs.1]
      rfl
    rw [pages_twig, List.map_singleton, hmark, line_twig, List.map_cons, List.map_cons]
    exact List.singleton_subperm_iff.2 List.mem_cons_self
  | succ h ih =>
    have hkids : ((Fork.kids s).flatMap pages |>.map fun p => (look p).bind Node.mark?).Subperm
        ((Fork.kids s).flatMap line |>.map some) := by
      rw [List.map_flatMap, List.map_flatMap]
      exact subperm_flatMap fun c hc => ih (hs.2 c hc) (hf.2 c hc)
    have hlen : 3 ≤ (Fork.kids s).length := hf.1.1
    have heq : (Fork.kids s).length = (Fork.keys s).length + 1 := Fork.length_kids s
    have hpos : 0 < (Fork.keys s).length := by omega
    obtain ⟨k, ks, hk⟩ := List.exists_cons_of_length_pos hpos
    -- the first separator marks the root, and the lines of the children have no share in it
    have hmark : (look s.page).bind Node.mark? = some (.separator k) := by
      rw [hs.1]
      show (Fork.keys s).head?.map _ = _
      rw [hk]
      rfl
    have hroot : [some (Mark.separator k)].Subperm (((Fork.keys s).map .separator).map some) := by
      rw [hk]
      exact List.singleton_subperm_iff.2 List.mem_cons_self
    refine .trans (?_ : List.Subperm _ (((Fork.keys s).map Mark.separator).map some ++
      ((Fork.kids s).flatMap line).map some)) ?_
    · rw [pages_eq, List.map_cons, hmark]
      exact hroot.append hkids
    · rw [← List.map_append]
      exact ((line_perm s).symm.map some).subperm

/-- No node below the root is a root. -/
theorem Below.exists_parent {s : Shape h} (hs : s.Below look keyType) {p : PageId}
    (hp : p ∈ s.pagesBelow) : ∃ n q, look p = some n ∧ n.parent = some q := by
  induction h with
  | zero => exact absurd hp List.not_mem_nil
  | succ h ih =>
    obtain ⟨c, hc, hp⟩ := List.mem_flatMap.1 hp
    rw [pages_eq] at hp
    rcases List.mem_cons.1 hp with rfl | hp
    · exact ⟨_, _, (hs c hc).1, parent_node ..⟩
    · exact ih (hs c hc).2 hp

/-- The pages of a tree whose keys ascend are distinct. -/
theorem nodup_pages {s : Shape h} (hs : s.Stored look keyType none) (hf : s.Filled)
    (ha : Ascending s.line) : s.pages.Nodup := by
  rw [pages_eq, List.nodup_cons]
  constructor
  · intro hp
    -- the root has no parent link, and what is below it has one
    obtain ⟨n, q, hn, hq⟩ := hs.2.exists_parent hp
    obtain rfl : s.node keyType none = n := Option.some.inj (hs.1.symm.trans hn)
    rw [parent_node] at hq
    cases hq
  · cases h with
    | zero => exact List.nodup_nil
    | succ h =>
      have hline : (s.line.map some).Nodup :=
        List.Nodup.map (Option.some_injective _) (ha.imp fun hab heq => hab.ne (congrArg _ heq))
      -- the marks of all other nodes are distinct, since the line ascends
      have hkids : ((Fork.kids s).flatMap line |>.map some).Nodup := by
        have hperm := ((line_perm s).map some).nodup_iff.1 hline
        rw [List.map_append] at hperm
        exact hperm.of_append_right
      have hmarks : ((Fork.kids s).flatMap pages |>.map fun p => (look p).bind Node.mark?).Subperm
          ((Fork.kids s).flatMap line |>.map some) := by
        rw [List.map_flatMap, List.map_flatMap]
        exact subperm_flatMap fun c hc => subperm_marks (hs.2 c hc) (hf c hc)
      obtain ⟨l, hl, hsub⟩ := hmarks
      exact (hl.nodup_iff.1 (hkids.sublist hsub)).of_map

end Shape

/-! ### The walk -/

theorem exists_of_forall₂_append {α β : Type} {r : α → β → Prop} {as as' : List α} {bs : List β}
    (h : List.Forall₂ r (as ++ as') bs) :
    ∃ cs cs', bs = cs ++ cs' ∧ List.Forall₂ r as cs ∧ List.Forall₂ r as' cs' := by
  induction as generalizing bs with
  | nil => exact ⟨[], bs, rfl, .nil, h⟩
  | cons a as ih =>
    obtain ⟨b, bs, hab, hrest, rfl⟩ := List.forall₂_cons_left_iff.1 h
    obtain ⟨cs, cs', rfl, hcs, hcs'⟩ := ih hrest
    exact ⟨b :: cs, cs', rfl, .cons hab hcs, hcs'⟩

namespace Tree

section Walk

variable {v : View} {place : Place} {queue : List Place} {sum m : TreeMeasures}

/-- What has been counted in `sum` and what is still to be found at the places in the queue makes
`m`: all leaves are at one depth. -/
def Surveys (v : View) (queue : List Place) (sum m : TreeMeasures) : Prop :=
  ∃ ms : List TreeMeasures, List.Forall₂ (Place.Bears v) queue ms ∧
    (∀ m' ∈ ms, m'.height = m.height) ∧
    (sum.leaves ≠ 0 ∨ queue = [] → sum.height = m.height) ∧
    m.nodes = sum.nodes + (ms.map (·.nodes)).sum ∧
    m.leaves = sum.leaves + (ms.map (·.leaves)).sum ∧
    m.records = sum.records + (ms.map (·.records)).sum

theorem surveys_nil_iff : Surveys v [] sum m ↔ sum = m := by
  constructor
  · rintro ⟨ms, hms, -, hheight, hnodes, hleaves, hrecords⟩
    obtain rfl := List.forall₂_nil_left_iff.1 hms
    obtain ⟨height, nodes, leaves, records⟩ := sum
    obtain ⟨height', nodes', leaves', records'⟩ := m
    obtain rfl : height = height' := hheight (.inr rfl)
    obtain rfl : nodes' = nodes := hnodes
    obtain rfl : leaves' = leaves := hleaves
    obtain rfl : records' = records := hrecords
    rfl
  · rintro rfl
    exact ⟨[], .nil, fun _ hm => absurd hm List.not_mem_nil, fun _ => rfl, rfl, rfl, rfl⟩

/-- There are nodes that have not been counted. -/
theorem Surveys.nodes_lt (h : Surveys v (place :: queue) sum m) : sum.nodes < m.nodes := by
  obtain ⟨ms, hms, -, -, hnodes, -⟩ := h
  obtain ⟨m₁, ms, ⟨height, s, -, rfl⟩, -, rfl⟩ := List.forall₂_cons_left_iff.1 hms
  have hlt : height < s.pages.length := s.height_lt_length_pages
  have hsum : m.nodes = sum.nodes + (s.pages.length + (ms.map (·.nodes)).sum) := hnodes
  omega

/-- There is a node at the first place. -/
theorem Surveys.exists_node (h : Surveys v (place :: queue) sum m) :
    ∃ n, v.node place.page = some n := by
  obtain ⟨ms, hms, -⟩ := h
  obtain ⟨m₁, -, hm₁, -, -⟩ := List.forall₂_cons_left_iff.1 hms
  exact hm₁.exists_node

/-- A leaf is counted. -/
theorem surveys_leaf_iff (hv : v.Valid) {l : Leaf} (hl : v.node place.page = some (.leaf l)) :
    Surveys v (place :: queue) sum m ↔ place.check v.keyType (.leaf l) = .ok () ∧
      (∀ e ∈ l.keys.zip l.records, ∃ r, v.record e.2 = some r ∧ r.key = e.1) ∧
      (sum.leaves = 0 ∨ place.depth = sum.height) ∧
      Surveys v queue ⟨place.depth, sum.nodes + 1, sum.leaves + 1, sum.records + l.size⟩ m := by
  constructor
  · rintro ⟨ms, hms, hdepth, hheight, hnodes, hleaves, hrecords⟩
    obtain ⟨m₁, ms, hm₁, hrest, rfl⟩ := List.forall₂_cons_left_iff.1 hms
    obtain ⟨hcheck, hresolved, rfl⟩ := (Place.bears_leaf_iff hv hl).1 hm₁
    -- the first leaf fixes the depth of all others
    have hplace : place.depth = m.height := hdepth _ List.mem_cons_self
    simp only [List.map_cons, List.sum_cons] at hnodes hleaves hrecords
    refine ⟨hcheck, hresolved, ?_, ms, hrest, fun m' hm' => hdepth m' (List.mem_cons_of_mem _ hm'),
      fun _ => hplace, ?_, ?_, ?_⟩
    · by_cases hzero : sum.leaves = 0
      · exact .inl hzero
      · exact .inr (hplace.trans (hheight (.inl hzero)).symm)
    all_goals
      dsimp only
      omega
  · rintro ⟨hcheck, hresolved, hleaf, ms, hms, hdepth, hheight, hnodes, hleaves, hrecords⟩
    dsimp only at hnodes hleaves hrecords
    have hplace : place.depth = m.height := hheight (.inl (Nat.succ_ne_zero _))
    refine ⟨⟨place.depth, 1, 1, l.size⟩ :: ms,
      .cons ((Place.bears_leaf_iff hv hl).2 ⟨hcheck, hresolved, rfl⟩) hms,
      List.forall_mem_cons.2 ⟨hplace, hdepth⟩, ?_, ?_, ?_, ?_⟩
    · rintro (hne | hnil)
      · exact (hleaf.resolve_left hne).symm.trans hplace
      · cases hnil
    all_goals
      simp only [List.map_cons, List.sum_cons]
      omega

/-- An internal node is counted, and its children have to be found instead of it. -/
theorem surveys_internal_iff (hv : v.Valid) {n : Internal}
    (hn : v.node place.page = some (.internal n)) :
    Surveys v (place :: queue) sum m ↔ place.check v.keyType (.internal n) = .ok () ∧
      Surveys v (queue ++ place.children n) { sum with nodes := sum.nodes + 1 } m := by
  constructor
  · rintro ⟨ms, hms, hdepth, hheight, hnodes, hleaves, hrecords⟩
    obtain ⟨m₁, ms, hm₁, hrest, rfl⟩ := List.forall₂_cons_left_iff.1 hms
    obtain ⟨hcheck, ms₁, hms₁, hdepth₁, hnodes₁, hleaves₁, hrecords₁⟩ :=
      (Place.bears_internal_iff hv hn).1 hm₁
    have hplace : m₁.height = m.height := hdepth _ List.mem_cons_self
    simp only [List.map_cons, List.sum_cons] at hnodes hleaves hrecords
    refine ⟨hcheck, ms ++ ms₁, List.rel_append hrest hms₁, ?_, ?_, ?_, ?_, ?_⟩
    · intro m' hm'
      rcases List.mem_append.1 hm' with hm' | hm'
      · exact hdepth m' (List.mem_cons_of_mem _ hm')
      · exact (hdepth₁ m' hm').trans hplace
    · rintro (hne | hnil)
      · exact hheight (.inl hne)
      · exact absurd (List.append_eq_nil_iff.1 hnil).2 (Place.children_ne_nil hv hn)
    all_goals
      simp only [List.map_append, List.sum_append]
      omega
  · rintro ⟨hcheck, ms, hms, hdepth, hheight, hnodes, hleaves, hrecords⟩
    obtain ⟨ms, ms₁, rfl, hms, hms₁⟩ := exists_of_forall₂_append hms
    simp only [List.map_append, List.sum_append] at hnodes hleaves hrecords
    refine ⟨⟨m.height, 1 + (ms₁.map (·.nodes)).sum, (ms₁.map (·.leaves)).sum,
      (ms₁.map (·.records)).sum⟩ :: ms,
      .cons ((Place.bears_internal_iff hv hn).2 ⟨hcheck, ms₁, hms₁,
        fun m' hm' => hdepth m' (List.mem_append_right _ hm'), rfl, rfl, rfl⟩) hms,
      List.forall_mem_cons.2 ⟨rfl, fun m' hm' => hdepth m' (List.mem_append_left _ hm')⟩,
      ?_, ?_, ?_, ?_⟩
    · rintro (hne | hnil)
      · exact hheight (.inl hne)
      · cases hnil
    all_goals
      simp only [List.map_cons, List.sum_cons]
      omega

end Walk

section Runs

variable {t t' : Tree} {v : View} {place : Place} {sum m : TreeMeasures}

/-- If the entries of a leaf are let pass, then their records are there. -/
theorem resolved_of_auditEntries {l : Leaf} (h : auditEntries l t = .ok () t') :
    (∀ e ∈ l.keys.zip l.records, ∃ r, t.view.record e.2 = some r ∧ r.key = e.1) ∧
      ∃ i j, t' = t.addReads i j := by
  rw [auditEntries, List.forM_eq_forM] at h
  generalize l.keys.zip l.records = es at h ⊢
  induction es generalizing t with
  | nil =>
    cases h
    exact ⟨fun e he => absurd he List.not_mem_nil, 0, 0, (addReads_zero _).symm⟩
  | cons e es ih =>
    rw [List.forM_cons] at h
    obtain ⟨u, t₁, hentry, hrest⟩ := Action.bind_eq_ok_iff.1 h
    obtain ⟨r, t₂, hfetch, hkey⟩ := Action.bind_eq_ok_iff.1 hentry
    obtain ⟨hr, rfl⟩ := fetchRecord_eq_ok_iff.1 hfetch
    split_ifs at hkey with heq
    · cases hkey
      obtain ⟨hes, i, j, rfl⟩ := ih hrest
      refine ⟨List.forall_mem_cons.2 ⟨⟨r, hr, heq⟩, hes⟩, 0 + i, 1 + j, ?_⟩
      exact addReads_addReads ..
    · cases hkey

theorem answers_auditEntries {l : Leaf}
    (h : ∀ e ∈ l.keys.zip l.records, ∃ r, v.record e.2 = some r ∧ r.key = e.1) :
    Answers (auditEntries l) v (.ok ()) := by
  rw [auditEntries, List.forM_eq_forM]
  generalize l.keys.zip l.records = es at h ⊢
  induction es with
  | nil => exact answers_pure ()
  | cons e es ih =>
    obtain ⟨⟨r, hr, hkey⟩, hes⟩ := List.forall_mem_cons.1 h
    rw [List.forM_cons]
    refine Answers.bind (a := ()) ((answers_fetchRecord hr).bind ?_) (ih hes)
    rw [if_pos hkey]
    exact answers_pure ()

/-- If a place is let pass, then the node there fits, and the walk goes on as it has to. -/
theorem surveys_of_auditPlace (queue : List Place) {below : List Place} {sum' : TreeMeasures}
    (h : auditPlace place sum t = .ok (sum', below) t') : t'.view = t.view ∧
      (Surveys t.view (queue ++ below) sum' m → Surveys t.view (place :: queue) sum m) := by
  obtain ⟨n, t₁, hfetch, h⟩ := Action.bind_eq_ok_iff.1 h
  obtain ⟨hn, rfl⟩ := fetchNode_eq_ok_iff.1 hfetch
  obtain ⟨t₂, t₃, hget, h⟩ := Action.bind_eq_ok_iff.1 h
  cases hget
  obtain ⟨u, t₄, hrule, h⟩ := Action.bind_eq_ok_iff.1 h
  obtain ⟨hcheck, rfl⟩ := Action.ofExcept_eq_ok_iff.1 hrule
  cases n with
  | leaf l =>
    obtain ⟨u, t₅, hrule', h⟩ := Action.bind_eq_ok_iff.1 h
    obtain ⟨hdepth, rfl⟩ := Action.ofExcept_eq_ok_iff.1 hrule'
    obtain ⟨u, t₆, hentries, h⟩ := Action.bind_eq_ok_iff.1 h
    obtain ⟨hresolved, i, j, rfl⟩ := resolved_of_auditEntries hentries
    cases h
    refine ⟨rfl, fun hrest => (surveys_leaf_iff t.valid_view hn).2
      ⟨hcheck, hresolved, ensure_eq_ok_iff.1 hdepth, ?_⟩⟩
    rw [List.append_nil] at hrest
    exact hrest
  | internal n =>
    cases h
    exact ⟨rfl, fun hrest => (surveys_internal_iff t.valid_view hn).2 ⟨hcheck, hrest⟩⟩

/-- If the walk ends, then it has found a tree at each place in the queue. -/
theorem surveys_of_auditPlaces {steps : Nat} {queue : List Place}
    (h : auditPlaces steps queue sum t = .ok m t') : Surveys t.view queue sum m := by
  induction steps generalizing queue sum t with
  | zero =>
    cases queue with
    | nil =>
      cases h
      exact surveys_nil_iff.2 rfl
    | cons place queue => cases h
  | succ steps ih =>
    cases queue with
    | nil =>
      cases h
      exact surveys_nil_iff.2 rfl
    | cons place queue =>
      obtain ⟨⟨sum', below⟩, t₁, hplace, hrest⟩ := Action.bind_eq_ok_iff.1 h
      obtain ⟨hview, hsurveys⟩ := surveys_of_auditPlace queue (m := m) hplace
      refine hsurveys ?_
      rw [← hview]
      exact ih hrest

/-- A place where there is a tree is let pass. -/
theorem exists_answers_auditPlace (hv : v.Valid) {queue : List Place}
    (h : Surveys v (place :: queue) sum m) : ∃ sum' below,
      Answers (auditPlace place sum) v (.ok (sum', below)) ∧ Surveys v (queue ++ below) sum' m ∧
        sum'.nodes = sum.nodes + 1 := by
  obtain ⟨n, hn⟩ := h.exists_node
  cases n with
  | leaf l =>
    obtain ⟨hcheck, hresolved, hdepth, hrest⟩ := (surveys_leaf_iff hv hn).1 h
    rw [← List.append_nil queue] at hrest
    refine ⟨_, [], (answers_fetchNode hn).bind (answers_get_bind fun t ht => ?_), hrest, rfl⟩
    have htype : t.keyType = v.keyType := by rw [← ht]; rfl
    refine (answers_ofExcept (by rw [htype, hcheck])).bind ?_
    refine (answers_ofExcept (ensure_eq_ok_iff.2 hdepth)).bind ?_
    exact (answers_auditEntries hresolved).bind (answers_pure _)
  | internal n =>
    obtain ⟨hcheck, hrest⟩ := (surveys_internal_iff hv hn).1 h
    refine ⟨_, _, (answers_fetchNode hn).bind (answers_get_bind fun t ht => ?_), hrest, rfl⟩
    have htype : t.keyType = v.keyType := by rw [← ht]; rfl
    exact (answers_ofExcept (by rw [htype, hcheck])).bind (answers_pure _)

/-- If there is a tree at each place in the queue, then the walk ends. -/
theorem answers_auditPlaces (hv : v.Valid) {steps : Nat} {queue : List Place}
    (h : Surveys v queue sum m) (hsteps : m.nodes ≤ sum.nodes + steps) :
    Answers (auditPlaces steps queue sum) v (.ok m) := by
  induction steps generalizing queue sum with
  | zero =>
    cases queue with
    | nil =>
      rw [surveys_nil_iff.1 h]
      exact answers_pure m
    | cons place queue => exact absurd hsteps (Nat.not_le.2 h.nodes_lt)
  | succ steps ih =>
    cases queue with
    | nil =>
      rw [surveys_nil_iff.1 h]
      exact answers_pure m
    | cons place queue =>
      obtain ⟨sum', below, hplace, hrest, hnodes⟩ := exists_answers_auditPlace hv h
      exact hplace.bind (ih hrest (by omega))

/-- What the walk has to find at the place of the root is the shape of the tree. -/
theorem surveys_root_iff : Surveys v [.root v.root] .zero m ↔
    ∃ (h : Nat) (s : Shape h), v.HasShape s ∧ s.measures 1 = m := by
  constructor
  · rintro ⟨ms, hms, hdepth, -, hnodes, hleaves, hrecords⟩
    obtain ⟨m₁, ms, ⟨h, s, hs, rfl⟩, hnil, rfl⟩ := List.forall₂_cons_left_iff.1 hms
    obtain rfl := List.forall₂_nil_left_iff.1 hnil
    have hascending := ((Shape.ranged_iff hs.occupied.2).1 hs.ranged).1
    refine ⟨h, s, ⟨hs.page_eq.symm, hs.stored, Shape.nodup_pages hs.stored hs.occupied.2 hascending,
      hs.ranged, hs.occupied, hs.resolved⟩, ?_⟩
    obtain ⟨height, nodes, leaves, records⟩ := m
    obtain rfl : 1 + h = height := hdepth _ List.mem_cons_self
    simp only [List.map_cons, List.map_nil, List.sum_cons, List.sum_nil, TreeMeasures.zero,
      Nat.add_zero, Nat.zero_add] at hnodes hleaves hrecords
    rw [hnodes, hleaves, hrecords]
    rfl
  · rintro ⟨h, s, hs, rfl⟩
    refine ⟨[s.measures 1], .cons ⟨h, s, ⟨hs.root_eq.symm, hs.ranged, hs.stored, hs.occupied,
      hs.resolved⟩, rfl⟩ .nil, ?_, ?_, ?_, ?_, ?_⟩
    · intro m' hm'
      rw [List.mem_singleton.1 hm']
    · rintro (hne | hnil)
      · exact absurd rfl hne
      · cases hnil
    all_goals simp [TreeMeasures.zero]

/-- The check ends well exactly on trees that have a shape, and answers its measures. -/
theorem audit_eq_ok_iff : (∃ t', audit t = .ok m t') ↔
    ∃ (h : Nat) (s : Shape h), t.view.HasShape s ∧ s.measures 1 = m := by
  rw [← surveys_root_iff]
  constructor
  · rintro ⟨t', h⟩
    exact surveys_of_auditPlaces h
  · intro h
    -- there are fewer nodes than pages, so that the walk is not cut short
    have hsteps : m.nodes ≤ TreeMeasures.zero.nodes + t.stepLimit := by
      obtain ⟨height, s, hs, rfl⟩ := surveys_root_iff.1 h
      have hlt := hs.stored.length_pages_lt t.valid_view hs.nodup
      exact Nat.le_add_left_of_le (Nat.le_of_lt (Nat.lt_succ_of_lt hlt))
    obtain ⟨i, j, hrun⟩ := (answers_auditPlaces t.valid_view h hsteps).run_ok rfl
    exact ⟨_, hrun⟩

end Runs

/-- Exactly the keys of the entries are found. -/
theorem found_iff {t : Tree} {h : Nat} {s : Shape h} (hs : t.view.HasShape s) (key : Field) :
    ((∃ r, Action.answer (lookup key t) = .ok (some r)) ↔ key ∈ s.entries.map Prod.fst) ∧
      (Action.answer (contains key t) = .ok true ↔ key ∈ s.entries.map Prod.fst) := by
  have hv := t.valid_view
  have hshaped := hs.shaped hv
  by_cases htype : key.type = t.keyType
  · have hcontains := (answers_contains hshaped hv htype).answer_eq rfl
    by_cases hkey : key ∈ s.entries.map Prod.fst
    · obtain ⟨⟨k, id⟩, he, rfl⟩ := List.mem_map.1 hkey
      obtain ⟨r, hr, hk⟩ := hs.resolved _ he
      have hlookup := (answers_lookup hshaped hv htype he hr hk).answer_eq rfl
      rw [hlookup, hcontains]
      exact ⟨iff_of_true ⟨r, rfl⟩ hkey, iff_of_true (by rw [decide_eq_true hkey]) hkey⟩
    · have hlookup := (answers_lookup_none hshaped hv htype hkey).answer_eq rfl
      rw [hlookup, hcontains]
      exact ⟨iff_of_false (fun ⟨r, hr⟩ => by cases hr) hkey,
        iff_of_false (by rw [decide_eq_false hkey]; simp) hkey⟩
  · have hrefused := refuses_requireKeyType (v := t.view) htype
    have hlookup : Answers (lookup key) t.view _ := hrefused.bind_error
    have hcontains : Answers (contains key) t.view _ := hrefused.bind_error
    have hkey : key ∉ s.entries.map Prod.fst := by
      intro hkey
      obtain ⟨⟨k, id⟩, he, rfl⟩ := List.mem_map.1 hkey
      exact htype (hshaped.keys_ok _ (Shape.mem_entries_iff.1 he)).1
    rw [hlookup.answer_eq rfl, hcontains.answer_eq rfl]
    exact ⟨iff_of_false (fun ⟨r, hr⟩ => by cases hr) hkey, iff_of_false (fun h => by cases h) hkey⟩

/-- The check ends well exactly on well-formed trees. Then it answers the measures of the tree: the
height that `height` finds, and the numbers of nodes, leaves and entries. The tree is empty if there
are no entries, their keys ascend from left to right, and they are the keys whose records are
found. -/
theorem audit_sound_and_complete (t : Tree) : ((∃ m t', audit t = .ok m t') ↔ t.WellFormed) ∧
    ∀ m t', audit t = .ok m t' → ∃ (h : Nat) (s : Shape h), t.view.HasShape s ∧
      m = ⟨h + 1, s.pages.length, s.leaves, s.entries.length⟩ ∧
      Action.answer (height t) = .ok m.height ∧
      Action.answer (isEmpty t) = .ok (decide (m.records = 0)) ∧
      (s.entries.map Prod.fst).Pairwise (· < ·) ∧
      ∀ key, ((∃ r, Action.answer (lookup key t) = .ok (some r)) ↔ key ∈ s.entries.map Prod.fst) ∧
        (Action.answer (contains key t) = .ok true ↔ key ∈ s.entries.map Prod.fst) := by
  constructor
  · constructor
    · rintro ⟨m, h⟩
      obtain ⟨height, s, hs, -⟩ := audit_eq_ok_iff.1 h
      exact ⟨height, s, hs⟩
    · rintro ⟨height, s, hs⟩
      exact ⟨_, audit_eq_ok_iff.2 ⟨height, s, hs, rfl⟩⟩
  · intro m t' haudit
    obtain ⟨h, s, hs, rfl⟩ := audit_eq_ok_iff.1 ⟨t', haudit⟩
    have hshaped := hs.shaped t.valid_view
    refine ⟨h, s, hs, ?_, ?_, ?_, hshaped.ascending.entries, found_iff hs⟩
    · rw [Shape.measures, Nat.add_comm]
    · rw [(answers_height hshaped t.valid_view).answer_eq rfl, Shape.measures, Nat.add_comm]
    · rw [(answers_isEmpty hshaped).answer_eq rfl, Shape.measures]
      cases s.entries <;> rfl

end Tree

end RecordIndex
