import Mathlib.Data.Prod.Lex
import RecordIndex.Proofs.KeySearch
import RecordIndex.Proofs.Surgery
import RecordIndex.Proofs.WellFormed
import RecordIndex.Tree.Lookup

/-!
# Descents

A descent goes the same way in the shape of a tree as on its pages: it ends at a leaf, after as many
steps as the tree is high, and the way that it has gone is a `Route`.

* `Tree.exists_descent`: the way of any descent.
* `Route.Follows.bounds`: the way that a key leads passes all smaller entries on its left and all
  larger ones on its right, so that the leaf at its end is the one for the key.
* `Tree.answersIn_findLeaf`, `Tree.answersIn_height`, `Tree.answersIn_contains` and
  `Tree.answersIn_lookup`: what look-ups answer, and that they read one page on each level.
-/

namespace RecordIndex

namespace Route

variable {H h : Nat} {keyType : FieldType} {next : Internal → Nat}

/-- The way goes where `next` says at every node, where `s` is at its end. -/
def Follows (next : Internal → Nat) (keyType : FieldType) : {h : Nat} → Route H h → Shape h → Prop
  | _, top, _ => True
  | _, down page left right above, s =>
    next ((fork page left s right).internal keyType above.parent) = left.length ∧
      above.Follows next keyType (fork page left s right)

/-- The next step of a way. -/
theorem exists_down (r : Route H (h + 1)) (s : Shape (h + 1))
    (hnext : next (s.internal keyType r.parent) ≤ (Fork.keys s).length)
    (hr : r.Follows next keyType s) : ∃ left c right,
      fork s.page left c right = s ∧ left.length = next (s.internal keyType r.parent) ∧
        (down s.page left right r).Follows next keyType c := by
  obtain ⟨left, c, right, hlen, hs⟩ := Fork.exists_splice s hnext
  have hs : fork s.page left c right = s := hs
  exact ⟨left, c, right, hs, hlen, by rw [hs]; exact hlen.symm, by rw [hs]; exact hr⟩

section Fork

variable {key : Field} {page : PageId} {left : List (Shape h × Field)} {s : Shape h}
  {right : List (Field × Shape h)}

/-- A key that leads to a child is not in front of the separators on the left of it, and in front of
those on the right. -/
theorem separators_bounds (ha : Shape.Ascending (fork page left s right).line)
    (hnext : Keys.firstLarger key (Fork.keys (fork page left s right)) = left.length) :
    (∀ e ∈ left, e.2 ≤ key) ∧ ∀ e ∈ right, key < e.1 := by
  have hkeys : (Fork.keys (fork page left s right)).Pairwise (· < ·) := ha.keys
  rw [keys_fork] at hkeys hnext
  obtain ⟨xs, ys, heq, hxs, hys⟩ := Keys.exists_split hkeys key
  rw [heq, Keys.firstLarger_append hxs hys] at hnext
  obtain ⟨hleft, hright⟩ := List.append_inj heq (by simp [hnext])
  refine ⟨fun e he => hxs e.2 ?_, fun e he => hys e.1 ?_⟩
  · rw [← hleft, List.mem_reverse]
    exact List.mem_map_of_mem he
  · rw [← hright]
    exact List.mem_map_of_mem he

/-- What stands on either side of the child that a key leads to, below the same parent. -/
theorem fork_bounds (ha : Shape.Ascending (fork page left s right).line)
    (hnext : Keys.firstLarger key (Fork.keys (fork page left s right)) = left.length) :
    (∀ m ∈ left.reverse.flatMap fun e => e.1.line ++ [.separator e.2],
      m.rank ≤ toLex (key, false)) ∧
        ∀ m ∈ right.flatMap fun e => .separator e.1 :: e.2.line, toLex (key, true) < m.rank := by
  obtain ⟨hleft, hright⟩ := separators_bounds ha hnext
  rw [line_fork] at ha
  obtain ⟨hlefts, -, -⟩ := List.pairwise_append.1 (List.pairwise_append.1 ha).1
  obtain ⟨-, hrights, -⟩ := List.pairwise_append.1 ha
  constructor
  · intro m hm
    obtain ⟨e, he, hm⟩ := List.mem_flatMap.1 hm
    -- a child further left is in front of its separator, which is not behind the key
    have hsep : (toLex (e.2, false) : Field ×ₗ Bool) ≤ toLex (key, false) := by
      rw [Prod.Lex.toLex_le_toLex]
      rcases lt_or_eq_of_le (hleft e (List.mem_reverse.1 he)) with hlt | heq
      · exact .inl hlt
      · exact .inr ⟨heq, le_refl _⟩
    rcases List.mem_append.1 hm with hm | hm
    · have hpair := (List.pairwise_flatMap.1 hlefts).1 e he
      have hlt := (List.pairwise_append.1 hpair).2.2 m hm _ List.mem_cons_self
      exact le_of_lt (lt_of_lt_of_le hlt hsep)
    · rw [List.mem_singleton.1 hm]
      exact hsep
  · intro m hm
    obtain ⟨e, he, hm⟩ := List.mem_flatMap.1 hm
    -- a child further right is behind its separator, which is behind the key
    have hsep : (toLex (key, true) : Field ×ₗ Bool) < (Mark.separator e.1).rank :=
      Prod.Lex.toLex_lt_toLex.2 (.inl (hright e he))
    rcases List.mem_cons.1 hm with rfl | hm
    · exact hsep
    · have hpair := (List.pairwise_flatMap.1 hrights).1 e he
      exact lt_trans hsep ((List.pairwise_cons.1 hpair).1 m hm)

end Fork

/-- What stands to the left of a way that a key leads is not behind the key's entry, and what stands
to the right of it is behind it. -/
theorem Follows.bounds {key : Field} {r : Route H h} {s : Shape h}
    (hr : r.Follows (fun n => Keys.firstLarger key n.keys) keyType s)
    (ha : Shape.Ascending (r.plug s).line) :
    (∀ m ∈ r.before, m.rank ≤ toLex (key, false)) ∧ ∀ m ∈ r.after, toLex (key, true) < m.rank := by
  induction r with
  | top => exact ⟨by simp [before], by simp [after]⟩
  | down page left right above ih =>
    obtain ⟨hnext, habove⟩ := hr
    obtain ⟨hbefore, hafter⟩ := ih habove ha
    rw [plug, line_plug above (fork page left s right)] at ha
    obtain ⟨hleft, hright⟩ :=
      fork_bounds (List.pairwise_append.1 (List.pairwise_append.1 ha).1).2.1 hnext
    exact ⟨fun m hm => (List.mem_append.1 hm).elim (hbefore m) (hleft m),
      fun m hm => (List.mem_append.1 hm).elim (hright m) (hafter m)⟩

/-- The entry of the key is at the end of the way that the key leads, if it is anywhere. -/
theorem Follows.mem_entries_iff {key : Field} {r : Route H 0} {w : Shape 0} {id : RecordId}
    (hr : r.Follows (fun n => Keys.firstLarger key n.keys) keyType w)
    (ha : Shape.Ascending (r.plug w).line) :
    (key, id) ∈ (r.plug w).entries ↔ (key, id) ∈ w.entries := by
  obtain ⟨hbefore, hafter⟩ := hr.bounds ha
  rw [Shape.mem_entries_iff, Shape.mem_entries_iff, line_plug, List.mem_append, List.mem_append]
  constructor
  · rintro ((hm | hm) | hm)
    · have hle := hbefore _ hm
      rcases Prod.Lex.toLex_le_toLex.1 hle with hlt | ⟨-, hle⟩
      · exact absurd hlt (lt_irrefl key)
      · cases hle rfl
    · exact hm
    · exact absurd (hafter _ hm) (lt_irrefl _)
  · exact fun hm => .inl (.inr hm)

section Leaf

variable {key : Field} {r : Route H 0} {w : Shape 0} {id : RecordId} {parent : Option PageId}

/-- The keys of a leaf, in ascending order. -/
theorem keys_leaf_ascending (ha : Shape.Ascending (r.plug w).line) :
    (w.leaf keyType parent).keys.Pairwise (· < ·) := by
  rw [line_plug] at ha
  have hw : Shape.Ascending w.line := (List.pairwise_append.1 (List.pairwise_append.1 ha).1).2.1
  exact hw.entries

/-- A key is missed in the leaf exactly if no entry of the tree has it. -/
theorem Follows.indexOf?_eq_none_iff
    (hr : r.Follows (fun n => Keys.firstLarger key n.keys) keyType w)
    (ha : Shape.Ascending (r.plug w).line) :
    Keys.indexOf? key (w.leaf keyType parent).keys = none ↔
      key ∉ (r.plug w).entries.map Prod.fst := by
  rw [Keys.indexOf?_eq_none_iff (keys_leaf_ascending ha), not_iff_not]
  constructor
  · intro h
    obtain ⟨⟨k, id⟩, he, rfl⟩ := List.mem_map.1 h
    exact List.mem_map.2 ⟨_, (hr.mem_entries_iff ha).2 he, rfl⟩
  · intro h
    obtain ⟨⟨k, id⟩, he, rfl⟩ := List.mem_map.1 h
    exact List.mem_map.2 ⟨_, (hr.mem_entries_iff ha).1 he, rfl⟩

theorem Follows.isSome_indexOf?_iff
    (hr : r.Follows (fun n => Keys.firstLarger key n.keys) keyType w)
    (ha : Shape.Ascending (r.plug w).line) :
    (Keys.indexOf? key (w.leaf keyType parent).keys).isSome ↔
      key ∈ (r.plug w).entries.map Prod.fst := by
  rw [Option.isSome_iff_ne_none, ne_eq, hr.indexOf?_eq_none_iff ha, not_not]

/-- The entry of a key is found in the leaf. -/
theorem Follows.exists_indexOf? (hr : r.Follows (fun n => Keys.firstLarger key n.keys) keyType w)
    (ha : Shape.Ascending (r.plug w).line) (he : (key, id) ∈ (r.plug w).entries)
    (parent : Option PageId) :
    ∃ xs ys, w = Shape.twig w.page (xs ++ (key, id) :: ys) ∧
      Keys.indexOf? key (w.leaf keyType parent).keys = some xs.length := by
  obtain ⟨xs, ys, hxs⟩ := List.append_of_mem ((hr.mem_entries_iff ha).1 he)
  have hw : w = Shape.twig w.page (xs ++ (key, id) :: ys) := congrArg (Shape.twig w.page) hxs
  refine ⟨xs, ys, hw, ?_⟩
  rw [Keys.indexOf?_eq_some_iff (keys_leaf_ascending ha), hw]
  exact Shape.getKey_twig

end Leaf

end Route

namespace Tree

variable {v : View} {H : Nat} {s : Shape H}

/-- Any descent ends at a leaf, and answers it with the height of the tree. It reads one page on
each level. -/
theorem exists_descent (next : Internal → Nat) (hnext : ∀ n, next n ≤ n.keys.length) {h : Nat}
    (r : Route H h) (s : Shape h) (hs : s.Stored v.node v.keyType r.parent)
    (hr : r.Follows next v.keyType s) :
    ∃ (r' : Route H 0) (w : Shape 0), r'.plug w = r.plug s ∧ r'.Follows next v.keyType w ∧
      ∀ steps, h < steps →
        AnswersIn (descend next steps s.page) v (w.leaf v.keyType r'.parent, h)
          (UInt64.ofNat (h + 1)) 0 := by
  induction h with
  | zero =>
    refine ⟨r, s, rfl, hr, fun steps hsteps => ?_⟩
    obtain ⟨steps, rfl⟩ := Nat.exists_eq_succ_of_ne_zero (Nat.ne_of_gt hsteps)
    exact (answersIn_fetchNode hs.1).bind_free (answersIn_pure _)
  | succ h ih =>
    obtain ⟨left, c, right, hfork, hlen, hdown⟩ := r.exists_down s (hnext _) hr
    obtain ⟨hpage, hbelow⟩ := hs
    have hc : c.Stored v.node v.keyType (some s.page) := by
      rw [← hfork, Route.below_fork] at hbelow
      exact hbelow.1
    obtain ⟨r', w, hplug, hr', hw⟩ := ih (.down s.page left right r) c hc hdown
    refine ⟨r', w, hplug.trans (congrArg r.plug hfork), hr', fun steps hsteps => ?_⟩
    obtain ⟨steps, rfl⟩ := Nat.exists_eq_succ_of_ne_zero (by omega : steps ≠ 0)
    have hget : Positions.get (s.internal v.keyType r.parent).children
        (next (s.internal v.keyType r.parent)) = .ok c.page := by
      rw [← hlen, Positions.get_eq_ok_iff]
      conv => lhs; rw [← hfork]
      exact Route.getChild_fork
    rw [Nat.add_comm (h + 1), UInt64.ofNat_add]
    refine (answersIn_fetchNode hpage).bind_pages ?_
    simp only [Shape.node, hget, Action.ofChecked_ok, pure_bind]
    exact (hw steps (by omega)).bind_free (answersIn_pure _)

theorem descendFromRoot_of_descend {next : Internal → Nat} {o : Leaf × Nat} {i j : UInt64}
    (h : AnswersIn (descend next (v.pageCount + 1) v.root) v o i j) :
    AnswersIn (descendFromRoot next) v o i j := by
  refine answersIn_get_bind fun t ht => ?_
  rw [← ht] at h ⊢
  exact h

/-- The leaf that is found for a key. All entries of the tree with this key are in it. -/
theorem answersIn_findLeaf (hs : v.Shaped s) (hv : v.Valid) (key : Field) :
    ∃ (r : Route H 0) (w : Shape 0), r.plug w = s ∧
      r.Follows (fun n => Keys.firstLarger key n.keys) v.keyType w ∧
        AnswersIn (findLeaf key) v (w.leaf v.keyType r.parent) (UInt64.ofNat (H + 1)) 0 := by
  obtain ⟨r, w, hplug, hr, hw⟩ := exists_descent
    (fun n => Keys.firstLarger key n.keys) (fun n => Keys.firstLarger_le_length key n.keys)
    .top s hs.stored trivial
  have hlt := s.height_lt_length_pages
  have hpages := hs.stored.length_pages_lt hv hs.nodup
  have hdescend := hw (v.pageCount + 1) (by omega)
  rw [← hs.root_eq] at hdescend
  exact ⟨r, w, hplug, hr, (descendFromRoot_of_descend hdescend).map Prod.fst⟩

theorem answers_findLeaf (hs : v.Shaped s) (hv : v.Valid) (key : Field) :
    ∃ (r : Route H 0) (w : Shape 0), r.plug w = s ∧
      r.Follows (fun n => Keys.firstLarger key n.keys) v.keyType w ∧
        Answers (findLeaf key) v (.ok (w.leaf v.keyType r.parent)) := by
  obtain ⟨r, w, hplug, hr, hleaf⟩ := answersIn_findLeaf hs hv key
  exact ⟨r, w, hplug, hr, hleaf.answers⟩

/-- The height is the number of levels. -/
theorem answersIn_height (hs : v.Shaped s) (hv : v.Valid) :
    AnswersIn height v (H + 1) (UInt64.ofNat (H + 1)) 0 := by
  obtain ⟨r, w, -, -, hw⟩ := exists_descent (fun _ => 0) (fun _ => Nat.zero_le _) .top s
    hs.stored trivial
  have hlt := s.height_lt_length_pages
  have hpages := hs.stored.length_pages_lt hv hs.nodup
  have hdescend := hw (v.pageCount + 1) (by omega)
  rw [← hs.root_eq] at hdescend
  exact (descendFromRoot_of_descend hdescend).bind_free (answersIn_pure _)

theorem answers_height (hs : v.Shaped s) (hv : v.Valid) : Answers height v (.ok (H + 1)) :=
  (answersIn_height hs hv).answers

/-- A tree is empty exactly if it has no entries. -/
theorem answers_isEmpty (hs : v.Shaped s) : Answers isEmpty v (.ok s.entries.isEmpty) := by
  refine answers_get_bind fun t ht => ?_
  have hroot : t.root = s.page := by
    rw [← hs.root_eq, ← ht]
    rfl
  rw [hroot]
  refine (answers_fetchNode hs.stored.1).bind ?_
  cases H with
  | zero =>
    obtain ⟨es, hes⟩ := s.exists_twig
    rw [hes]
    cases es <;> exact answers_pure _
  | succ H =>
    obtain ⟨e, he⟩ := Shape.exists_mem_entries (hs.occupied.2 (Fork.first s) List.mem_cons_self)
    have hmem : e ∈ s.entries := List.mem_flatMap.2 ⟨_, List.mem_cons_self, he⟩
    have hne : s.entries.isEmpty = false := by
      rw [List.isEmpty_eq_false_iff]
      exact List.ne_nil_of_mem hmem
    rw [hne]
    exact answers_pure _

theorem answersIn_requireKeyType {key : Field} (h : key.type = v.keyType) :
    AnswersIn (requireKeyType key) v () 0 0 := by
  refine answersIn_get_bind fun t ht => ?_
  have ht : key.type = t.keyType := by rw [h, ← ht]; rfl
  rw [if_pos ht]
  exact answersIn_pure _

theorem answers_requireKeyType {key : Field} (h : key.type = v.keyType) :
    Answers (requireKeyType key) v (.ok ()) :=
  (answersIn_requireKeyType h).answers

/-- A key of another type is refused. -/
theorem refuses_requireKeyType {key : Field} (h : key.type ≠ v.keyType) :
    Answers (requireKeyType key) v
      (.error (.error (.invalidOperation (.treeKeyType key v.keyType)))) := by
  refine answers_get_bind fun t ht => ?_
  have htype : t.keyType = v.keyType := by rw [← ht]; rfl
  rw [htype, if_neg h]
  exact answers_fail _

/-- A key is in the tree exactly if some entry has it. -/
theorem answersIn_contains (hs : v.Shaped s) (hv : v.Valid) {key : Field}
    (hkey : key.type = v.keyType) :
    AnswersIn (contains key) v (decide (key ∈ s.entries.map Prod.fst)) (UInt64.ofNat (H + 1)) 0 := by
  obtain ⟨r, w, hplug, hr, hleaf⟩ := answersIn_findLeaf hs hv key
  subst hplug
  have hmem : (Keys.indexOf? key (w.leaf v.keyType r.parent).keys).isSome =
      decide (key ∈ (r.plug w).entries.map Prod.fst) := by
    rw [Bool.eq_iff_iff, decide_eq_true_iff, hr.isSome_indexOf?_iff hs.ascending]
  rw [← hmem]
  exact (answersIn_requireKeyType hkey).free_bind (hleaf.bind_free (answersIn_pure _))

theorem answers_contains (hs : v.Shaped s) (hv : v.Valid) {key : Field}
    (hkey : key.type = v.keyType) :
    Answers (contains key) v (.ok (decide (key ∈ s.entries.map Prod.fst))) :=
  (answersIn_contains hs hv hkey).answers

/-- The record of a key is the one that its entry leads to. -/
theorem answersIn_lookup (hs : v.Shaped s) (hv : v.Valid) {key : Field} {id : RecordId}
    {rec : Record} (hkey : key.type = v.keyType) (he : (key, id) ∈ s.entries)
    (hrec : v.record id = some rec) (hreckey : rec.key = key) :
    AnswersIn (lookup key) v (some rec) (UInt64.ofNat (H + 1)) 1 := by
  obtain ⟨r, w, hplug, hr, hleaf⟩ := answersIn_findLeaf hs hv key
  subst hplug
  obtain ⟨xs, ys, hw, hindex⟩ := hr.exists_indexOf? hs.ascending he r.parent
  have hget : Positions.get (w.leaf v.keyType r.parent).records xs.length = .ok id := by
    rw [hw]
    exact Shape.getRecord_twig rfl
  rw [← UInt64.add_zero (UInt64.ofNat (H + 1))]
  refine (answersIn_requireKeyType hkey).free_bind (hleaf.bind_pages ?_)
  simp only [hindex, hget, Action.ofChecked_ok, pure_bind]
  refine (answersIn_fetchRecord hrec).bind_free ?_
  rw [if_pos hreckey]
  exact answersIn_pure _

theorem answers_lookup (hs : v.Shaped s) (hv : v.Valid) {key : Field} {id : RecordId} {rec : Record}
    (hkey : key.type = v.keyType) (he : (key, id) ∈ s.entries) (hrec : v.record id = some rec)
    (hreckey : rec.key = key) : Answers (lookup key) v (.ok (some rec)) :=
  (answersIn_lookup hs hv hkey he hrec hreckey).answers

/-- A key that no entry has is not found. -/
theorem answersIn_lookup_none (hs : v.Shaped s) (hv : v.Valid) {key : Field}
    (hkey : key.type = v.keyType) (he : key ∉ s.entries.map Prod.fst) :
    AnswersIn (lookup key) v none (UInt64.ofNat (H + 1)) 0 := by
  obtain ⟨r, w, hplug, hr, hleaf⟩ := answersIn_findLeaf hs hv key
  subst hplug
  have hindex : Keys.indexOf? key (w.leaf v.keyType r.parent).keys = none :=
    (hr.indexOf?_eq_none_iff hs.ascending).2 he
  refine (answersIn_requireKeyType hkey).free_bind (hleaf.bind_free ?_)
  simp only [hindex]
  exact answersIn_pure _

theorem answers_lookup_none (hs : v.Shaped s) (hv : v.Valid) {key : Field}
    (hkey : key.type = v.keyType) (he : key ∉ s.entries.map Prod.fst) :
    Answers (lookup key) v (.ok none) :=
  (answersIn_lookup_none hs hv hkey he).answers

end Tree
end RecordIndex
