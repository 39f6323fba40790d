import Mathlib.Data.List.Nodup
import Mathlib.Data.List.Perm.Basic
import RecordIndex.Proofs.Pending
import RecordIndex.Proofs.Settling
import RecordIndex.Proofs.Surgery

/-!
# Siblings

A node that is too small is mended with a sibling. `View.Siblings` is what holds of two neighbours
below one parent of which one is still in memory.

* `View.Siblings.of_right` and `View.Siblings.of_left`: the node in memory is either of the two.
* `View.Exchanges`: what is written for the two, one node or two again.
* `View.Siblings.pending`: the parent is left to be written next.
* `View.Exchanges.settles`: and nothing is left behind on a page that is given up.
* `Shape.Replaces`: a part of a line that may come in the place of another one.
-/

namespace RecordIndex

/-- A part of a line can come in the place of another one: it ascends where the other one does, has
no other keys, and the same entries. -/
structure Shape.Replaces (new old : List Mark) : Prop where
  ascending : ∀ {X Y}, Shape.Ascending (X ++ old ++ Y) → Shape.Ascending (X ++ new ++ Y)
  keys : ∀ m ∈ new, ∃ m' ∈ old, m'.key = m.key
  entries : new.filterMap Mark.entry? = old.filterMap Mark.entry?

namespace Shape

theorem Replaces.of_eq {new old : List Mark} (h : new = old) : Replaces new old := by
  subst h
  exact ⟨fun h => h, fun m hm => ⟨m, hm, rfl⟩, rfl⟩

variable {k : Field} {es es' xs ys : List (Field × RecordId)} {e e' : Field × RecordId}

/-- Entries on both sides of a separator stand side by side without it. -/
theorem replaces_joined : Replaces ((es ++ es').map fun e => .entry e.1 e.2)
    ((es.map fun e => .entry e.1 e.2) ++ .separator k :: es'.map fun e => .entry e.1 e.2) := by
  have hsub : ((es ++ es').map fun e => Mark.entry e.1 e.2).Sublist
      ((es.map fun e => .entry e.1 e.2) ++ .separator k :: es'.map fun e => .entry e.1 e.2) := by
    rw [List.map_append]
    exact List.Sublist.append_left (List.sublist_cons_self _ _) _
  refine ⟨fun h => h.sublist ((hsub.append_left _).append_right _),
    fun m hm => ⟨m, hsub.subset hm, rfl⟩, ?_⟩
  rw [List.map_append, List.filterMap_append, List.filterMap_append]
  rfl

/-- Entries on both sides of a separator can be divided in another way. -/
theorem replaces_divided (heq : es ++ es' = (xs ++ [e]) ++ e' :: ys) :
    Replaces (((xs ++ [e]).map fun e => .entry e.1 e.2) ++
        .separator e'.1 :: (e' :: ys).map fun e => .entry e.1 e.2)
      ((es.map fun e => .entry e.1 e.2) ++ .separator k :: es'.map fun e => .entry e.1 e.2) := by
  have hjoin := @replaces_joined k es es'
  rw [heq] at hjoin
  refine ⟨fun h => ?_, fun m hm => ?_, ?_⟩
  · have hjoined := hjoin.ascending h
    simp only [List.map_append, List.map_cons, List.map_nil, List.append_assoc, List.cons_append,
      List.nil_append] at hjoined ⊢
    rw [← List.append_assoc] at hjoined ⊢
    exact hjoined.insert_separator
  · by_cases hsep : m = .separator e'.1
    · obtain ⟨m', hm', hkey⟩ := hjoin.keys (.entry e'.1 e'.2) (by simp)
      exact ⟨m', hm', by rw [hkey, hsep]; rfl⟩
    · refine hjoin.keys m ?_
      simpa [hsep] using hm
  · rw [← hjoin.entries, List.filterMap_append, @List.map_append _ _ _ (xs ++ [e]) (e' :: ys),
      List.filterMap_append]
    rfl

end Shape

/-- Two neighbours below one parent are as they should be but for their sizes, and the nodes around
them are on their pages. -/
structure View.Siblings (v : View) {H h : Nat} (above : Route H (h + 1)) (page : PageId)
    (left : List (Shape h × Field)) (a : Shape h) (k : Field) (b : Shape h)
    (right : List (Field × Shape h)) : Prop where
  root_eq : v.root = (above.plug (Route.fork page left a ((k, b) :: right))).page
  parent_stored : v.node page =
    some ((Route.fork page left a ((k, b) :: right)).node v.keyType above.parent)
  above_stored : above.Stored v.node v.keyType (Route.fork page left a ((k, b) :: right))
  left_stored : ∀ e ∈ left, e.1.Stored v.node v.keyType (some page)
  right_stored : ∀ e ∈ right, e.2.Stored v.node v.keyType (some page)
  below : a.Below v.node v.keyType ∧ b.Below v.node v.keyType
  hasPage : v.HasPage a.page ∧ v.HasPage b.page
  nodup : ((above.pages ++ page :: ((left.flatMap fun e => e.1.pages) ++
    right.flatMap fun e => e.2.pages)) ++ (a.pages ++ b.pages)).Nodup
  above_occupied : above.Occupied
  left_occupied : ∀ e ∈ left, e.1.Occupied false
  right_occupied : ∀ e ∈ right, e.2.Occupied false
  filled : a.Filled ∧ b.Filled
  size_le : Shape.least above.isTop (h + 1) ≤ left.length + 1 + right.length + 1 ∧
    left.length + 1 + right.length + 1 ≤ Shape.most (h + 1)
  ascending : Shape.Ascending
    (above.before ++ (Route.fork page left a ((k, b) :: right)).line ++ above.after)
  keys_ok : ∀ m ∈ above.before ++ (Route.fork page left a ((k, b) :: right)).line ++ above.after,
    v.KeyOk m.key

/-- A change puts `c`, and `new` to the right of it, in the place of two neighbours below one parent.
They take no pages but those of the two, and there is no node on a page that they do not take. -/
structure View.Exchanges (v v' : View) {h : Nat} (parent : PageId) (a : Shape h) (k : Field)
    (b c : Shape h) (new : List (Field × Shape h)) : Prop where
  keeps : v.Keeps v'
  root_eq : v'.root = v.root
  pageCount_eq : v'.pageCount = v.pageCount
  line : Shape.Replaces (c.line ++ new.flatMap fun e => .separator e.1 :: e.2.line)
    (a.line ++ .separator k :: b.line)
  count_le : ∀ p, (c.pages ++ new.flatMap fun e => e.2.pages).count p ≤
    (a.pages ++ b.pages).count p
  stored : c.Stored v'.node v.keyType (some parent)
  occupied : c.Occupied false
  rest : ∀ e ∈ new, e.2.Stored v'.node v.keyType (some parent) ∧ e.2.Occupied false
  untouched : ∀ p, v.HasPage p → p ∉ a.pages ∧ p ∉ b.pages → v'.node p = v.node p
  vacated : ∀ p ∈ a.pages ++ b.pages, p ∉ c.pages ++ new.flatMap (fun e => e.2.pages) →
    v'.node p = none

/-- The tree takes no page, and nothing is left behind on one that it gives up. -/
theorem View.Exchanges.settles {v v' : View} {H h : Nat} {above : Route H (h + 1)} {page : PageId}
    {left : List (Shape h × Field)} {a b c : Shape h} {k : Field}
    {new right : List (Field × Shape h)} (hx : v.Exchanges v' page a k b c new) :
    v.Settles v' (above.plug (Route.fork page left a ((k, b) :: right))).pages
      (above.plug (Route.fork page left c (new ++ right))).pages := by
  have hpages : ∀ (d : Shape h) (ds : List (Field × Shape h)) (p : PageId),
      p ∈ (above.plug (Route.fork page left d (ds ++ right))).pages ↔
        p ∈ above.pages ++ page :: ((left.flatMap fun e => e.1.pages) ++
          right.flatMap fun e => e.2.pages) ∨ p ∈ d.pages ++ ds.flatMap fun e => e.2.pages := by
    intro d ds p
    have hfork := (@Route.pages_fork _ page left d (ds ++ right)).mem_iff (a := p)
    rw [(Route.pages_plug above _).mem_iff]
    simp only [List.mem_append, List.mem_cons, List.flatMap_append] at hfork ⊢
    tauto
  have hnew := hpages c new
  have hold := hpages a [(k, b)]
  rw [List.flatMap_singleton, List.singleton_append] at hold
  have hsub : ∀ p ∈ c.pages ++ new.flatMap (fun e => e.2.pages), p ∈ a.pages ++ b.pages :=
    fun p hp => List.count_pos_iff.1 (Nat.lt_of_lt_of_le (List.count_pos_iff.2 hp) (hx.count_le p))
  refine View.settles_of_pageCount_eq hx.pageCount_eq (fun p hp => ?_) (fun p hp hmem => ?_)
    fun p hp hmem => ?_
  · exact (hold p).2 (((hnew p).1 hp).imp_right (hsub p))
  · have hout : p ∉ a.pages ++ b.pages := fun hin => hmem ((hold p).2 (.inr hin))
    rw [List.mem_append, not_or] at hout
    exact hx.untouched p hp hout
  · obtain ⟨haround, hout⟩ := not_or.1 (mt (hnew p).2 hmem)
    exact hx.vacated p (((hold p).1 hp).resolve_left haround) hout

namespace View.Siblings

variable {v v' : View} {H h : Nat} {above : Route H (h + 1)} {page : PageId}
  {left : List (Shape h × Field)} {a b : Shape h} {k : Field} {right : List (Field × Shape h)}

/-- The right neighbour of a node in memory. -/
theorem of_right (hs : v.Pending (.down page left ((k, b) :: right) above) a) (hv : v.Valid) :
    v.Siblings above page left a k b right := by
  obtain ⟨hpage, hleft, hright, habove⟩ := hs.around
  obtain ⟨hsize, hoccLeft, hoccRight, hoccAbove⟩ := hs.around_occupied
  have hb := hright (k, b) List.mem_cons_self
  have hline : above.before ++ (Route.fork page left a ((k, b) :: right)).line ++ above.after =
      Route.before (.down page left ((k, b) :: right) above) ++ a.line ++
        Route.after (.down page left ((k, b) :: right) above) := by
    rw [← Route.line_plug, ← Route.line_plug]
    rfl
  refine ⟨hs.root_eq, hpage, habove, hleft, fun e he => hright e (List.mem_cons_of_mem _ he),
    ⟨hs.below, hb.2⟩, ⟨hs.hasPage, hv.hasPage hb.1⟩, ?_, hoccAbove, hoccLeft,
    fun e he => hoccRight e (List.mem_cons_of_mem _ he),
    ⟨hs.filled, (hoccRight (k, b) List.mem_cons_self).2⟩, hsize, hline ▸ hs.ascending,
    hline ▸ hs.keys_ok⟩
  refine List.Perm.nodup (List.perm_iff_count.2 fun p => ?_) hs.nodup
  simp only [Route.pages, List.count_append, List.count_cons, List.flatMap_cons]
  omega

/-- The left neighbour of a node in memory. -/
theorem of_left (hs : v.Pending (.down page ((a, k) :: left) right above) b) (hv : v.Valid) :
    v.Siblings above page left a k b right := by
  obtain ⟨hpage, hleft, hright, habove⟩ := hs.around
  obtain ⟨hsize, hoccLeft, hoccRight, hoccAbove⟩ := hs.around_occupied
  have ha := hleft (a, k) List.mem_cons_self
  have hline : above.before ++ (Route.fork page left a ((k, b) :: right)).line ++ above.after =
      Route.before (.down page ((a, k) :: left) right above) ++ b.line ++
        Route.after (.down page ((a, k) :: left) right above) := by
    rw [← Route.line_plug, ← Route.line_plug]
    rfl
  refine ⟨hs.root_eq, hpage, habove, fun e he => hleft e (List.mem_cons_of_mem _ he), hright,
    ⟨ha.2, hs.below⟩, ⟨hv.hasPage ha.1, hs.hasPage⟩, ?_, hoccAbove,
    fun e he => hoccLeft e (List.mem_cons_of_mem _ he), hoccRight,
    ⟨(hoccLeft (a, k) List.mem_cons_self).2, hs.filled⟩, ?_, hline ▸ hs.ascending,
    hline ▸ hs.keys_ok⟩
  · refine List.Perm.nodup (List.perm_iff_count.2 fun p => ?_) hs.nodup
    simp only [Route.pages, List.count_append, List.count_cons, List.flatMap_cons]
    omega
  · rw [List.length_cons] at hsize
    omega

/-- The parent without one of the two children. -/
theorem size_merged (hs : v.Siblings above page left a k b right) {c : Shape h} :
    Shape.least above.isTop (h + 1) ≤ (Route.fork page left c right).size + 1 ∧
      (Route.fork page left c right).size ≤ Shape.most (h + 1) := by
  have hsize := hs.size_le
  rw [Route.size_fork]
  omega

theorem nodup_pages (hs : v.Siblings above page left a k b right) : (a.pages ++ b.pages).Nodup :=
  (List.nodup_append.1 hs.nodup).2.1

theorem not_mem (hs : v.Siblings above page left a k b right) {p : PageId}
    (hp : p ∈ above.pages ++ page :: ((left.flatMap fun e => e.1.pages) ++
      right.flatMap fun e => e.2.pages)) : p ∉ a.pages ∧ p ∉ b.pages := by
  have hne := (List.nodup_append.1 hs.nodup).2.2 p hp
  exact ⟨fun ha => hne p (List.mem_append_left _ ha) rfl,
    fun hb => hne p (List.mem_append_right _ hb) rfl⟩

/-- The page of a child is not one of the pages to the left, if no page of its is. -/
theorem page_not_mem_left {left : List (Shape h × Field)} {s : Shape h}
    (hs : s.page ∉ left.flatMap fun e => e.1.pages) : s.page ∉ left.map fun e => e.1.page := by
  intro hmem
  obtain ⟨e, he, heq⟩ := List.mem_map.1 hmem
  exact hs (List.mem_flatMap.2 ⟨e, he, heq ▸ e.1.page_mem_pages⟩)

/-- The parent has the separator of two neighbours where they are. -/
theorem separatorIndex (hs : v.Siblings above page left a k b right) {parent : Option PageId} :
    ((Route.fork page left a ((k, b) :: right)).internal v.keyType parent).separatorIndex a.page
      b.page = .ok left.length := by
  have hout : ∀ p ∈ left.flatMap (fun e => e.1.pages), p ∉ a.pages ∧ p ∉ b.pages := fun p hp =>
    hs.not_mem (List.mem_append_right _ (List.mem_cons_of_mem _ (List.mem_append_left _ hp)))
  refine Route.separatorIndex_fork (page_not_mem_left fun hp => (hout _ hp).1 a.page_mem_pages)
    (page_not_mem_left fun hp => (hout _ hp).2 b.page_mem_pages) fun heq => ?_
  exact (List.nodup_append.1 hs.nodup_pages).2.2 _ a.page_mem_pages _ b.page_mem_pages heq.symm

theorem separatorIndex_leaf {above : Route H 1} {left : List (Shape 0 × Field)} {a b : Shape 0}
    {right : List (Field × Shape 0)} (hs : v.Siblings above page left a k b right)
    {parent p q : Option PageId} :
    ((Route.fork page left a ((k, b) :: right)).internal v.keyType parent).separatorIndex
      (a.leaf v.keyType p).page (b.leaf v.keyType q).page = .ok left.length :=
  hs.separatorIndex

theorem separatorIndex_internal {above : Route H (h + 2)} {left : List (Shape (h + 1) × Field)}
    {a b : Shape (h + 1)} {right : List (Field × Shape (h + 1))}
    (hs : v.Siblings above page left a k b right) {parent p q : Option PageId} :
    ((Route.fork page left a ((k, b) :: right)).internal v.keyType parent).separatorIndex
      (a.internal v.keyType p).page (b.internal v.keyType q).page = .ok left.length :=
  hs.separatorIndex

/-- The line of the tree around two neighbours. -/
theorem exists_line (hs : v.Siblings above page left a k b right) : ∃ X Y : List Mark,
    Shape.Ascending (X ++ (a.line ++ .separator k :: b.line) ++ Y) ∧
      (∀ m ∈ X ++ (a.line ++ .separator k :: b.line) ++ Y, v.KeyOk m.key) ∧
      (above.plug (Route.fork page left a ((k, b) :: right))).line =
        X ++ (a.line ++ .separator k :: b.line) ++ Y ∧
      ∀ (c : Shape h) (new : List (Field × Shape h)),
        (above.plug (Route.fork page left c (new ++ right))).line =
          X ++ (c.line ++ new.flatMap fun e => .separator e.1 :: e.2.line) ++ Y := by
  have hline : ∀ (c : Shape h) (new : List (Field × Shape h)),
      (above.plug (Route.fork page left c (new ++ right))).line =
        (above.before ++ left.reverse.flatMap fun e => e.1.line ++ [.separator e.2]) ++
          (c.line ++ new.flatMap fun e => .separator e.1 :: e.2.line) ++
            ((right.flatMap fun e => .separator e.1 :: e.2.line) ++ above.after) := by
    intro c new
    rw [Route.line_plug, Route.line_fork, List.flatMap_append]
    simp only [List.append_assoc]
  have hold : (above.plug (Route.fork page left a ((k, b) :: right))).line = _ := hline a [(k, b)]
  rw [List.flatMap_singleton] at hold
  have hascending := hs.ascending
  have hkeys := hs.keys_ok
  rw [← Route.line_plug, hold] at hascending hkeys
  exact ⟨_, _, hascending, hkeys, hold, hline⟩

/-- The keys of what comes in the place of two neighbours can stand on pages. -/
theorem keyOk (hs : v.Siblings above page left a k b right) {new : List Mark}
    (hline : Shape.Replaces new (a.line ++ .separator k :: b.line)) {m : Mark} (hm : m ∈ new) :
    v.KeyOk m.key := by
  obtain ⟨X, Y, -, hkeys, -⟩ := hs.exists_line
  obtain ⟨m', hm', hkey⟩ := hline.keys m hm
  rw [← hkey]
  exact hkeys m' (List.mem_append_left _ (List.mem_append_right _ hm'))

section Exchanges

variable {c : Shape h} {new : List (Field × Shape h)}

theorem encodable (hs : v.Siblings above page left a k b right)
    (hx : v.Exchanges v' page a k b c new) : (c.node v.keyType (some page)).Encodable :=
  Shape.encodable_node (fun _ hm => hs.keyOk hx.line (List.mem_append_left _ hm)) hx.occupied.1.2

theorem encodable_rest (hs : v.Siblings above page left a k b right)
    (hx : v.Exchanges v' page a k b c new) {e : Field × Shape h} (he : e ∈ new) :
    (e.2.node v.keyType (some page)).Encodable := by
  refine Shape.encodable_node (fun m hm => hs.keyOk hx.line ?_) (hx.rest e he).2.1.2
  exact List.mem_append_right _ (List.mem_flatMap.2 ⟨e, he, List.mem_cons_of_mem _ hm⟩)

/-- The entries stay when other nodes come in the place of two neighbours. -/
theorem entries_plug (hs : v.Siblings above page left a k b right)
    (hx : v.Exchanges v' page a k b c new) :
    (above.plug (Route.fork page left c (new ++ right))).entries =
      (above.plug (Route.fork page left a ((k, b) :: right))).entries := by
  obtain ⟨X, Y, -, -, hold, hnew⟩ := hs.exists_line
  rw [← Shape.filterMap_line, ← Shape.filterMap_line, hold, hnew]
  rw [List.filterMap_append, List.filterMap_append, hx.line.entries, ← List.filterMap_append,
    ← List.filterMap_append]

/-- When what comes in the place of two neighbours is on its pages, the parent has to be written. -/
theorem pending (hs : v.Siblings above page left a k b right) (hv : v.Valid)
    (hx : v.Exchanges v' page a k b c new) :
    v'.Pending above (Route.fork page left c (new ++ right)) where
  root_eq := by
    rw [hx.root_eq, hs.root_eq]
    exact Route.page_plug (by rw [Route.page_fork, Route.page_fork])
  around := by
    rw [hx.keeps.keyType]
    refine (hs.above_stored.of_page_eq (by rw [Route.page_fork, Route.page_fork])).congr
      fun p hp => hx.untouched p (hs.above_stored.hasPage hv hp) (hs.not_mem ?_)
    exact List.mem_append_left _ hp
  below := by
    rw [hx.keeps.keyType, Route.below_fork]
    refine ⟨hx.stored, fun e he => ?_, fun e he => ?_⟩
    · refine (hs.left_stored e he).congr fun p hp =>
        hx.untouched p ((hs.left_stored e he).hasPage hv hp) (hs.not_mem ?_)
      exact List.mem_append_right _ (List.mem_cons_of_mem _
        (List.mem_append_left _ (List.mem_flatMap.2 ⟨e, he, hp⟩)))
    · rcases List.mem_append.1 he with he | he
      · exact (hx.rest e he).1
      · refine (hs.right_stored e he).congr fun p hp =>
          hx.untouched p ((hs.right_stored e he).hasPage hv hp) (hs.not_mem ?_)
        exact List.mem_append_right _ (List.mem_cons_of_mem _
          (List.mem_append_right _ (List.mem_flatMap.2 ⟨e, he, hp⟩)))
  hasPage := by
    rw [Route.page_fork]
    exact hx.keeps.hasPage (hv.hasPage hs.parent_stored)
  nodup := by
    refine List.nodup_iff_count_le_one.2 fun p => ?_
    have hle := List.nodup_iff_count_le_one.1 hs.nodup p
    have hfork := (@Route.pages_fork _ page left c (new ++ right)).count_eq p
    have hnewPages := hx.count_le p
    simp only [List.count_append, List.count_cons, List.flatMap_append] at hle hfork hnewPages ⊢
    omega
  around_occupied := hs.above_occupied
  filled := by
    refine Route.filled_fork.2 ⟨hx.occupied, hs.left_occupied, fun e he => ?_⟩
    rcases List.mem_append.1 he with he | he
    · exact (hx.rest e he).2
    · exact hs.right_occupied e he
  ascending := by
    obtain ⟨X, Y, hascending, -, -, hXY⟩ := hs.exists_line
    rw [← Route.line_plug, hXY]
    exact hx.line.ascending hascending
  keys_ok m hm := by
    obtain ⟨X, Y, -, hkeys, -, hXY⟩ := hs.exists_line
    rw [← Route.line_plug, hXY, List.mem_append, List.mem_append] at hm
    refine hx.keeps.keyOk ?_
    rcases hm with (hm | hm) | hm
    · exact hkeys m (List.mem_append_left _ (List.mem_append_left _ hm))
    · exact hs.keyOk hx.line hm
    · exact hkeys m (List.mem_append_right _ hm)

end Exchanges

/-- The pages below two neighbours. -/
theorem nodup_below {above : Route H (h + 2)} {left : List (Shape (h + 1) × Field)}
    {a b : Shape (h + 1)} {right : List (Field × Shape (h + 1))}
    (hs : v.Siblings above page left a k b right) :
    ((Fork.kids a ++ Fork.kids b).flatMap Shape.pages).Nodup ∧ a.page ≠ b.page ∧
      ∀ p ∈ (Fork.kids a ++ Fork.kids b).flatMap Shape.pages, p ≠ a.page ∧ p ≠ b.page := by
  have hperm : (a.pages ++ b.pages).Perm
      (a.page :: b.page :: (Fork.kids a ++ Fork.kids b).flatMap Shape.pages) := by
    rw [List.flatMap_append, Shape.pages_eq a, Shape.pages_eq b]
    exact List.Perm.cons _ List.perm_middle
  obtain ⟨ha, hn⟩ := List.nodup_cons.1 (hperm.nodup_iff.1 hs.nodup_pages)
  obtain ⟨hb, hn⟩ := List.nodup_cons.1 hn
  refine ⟨hn, fun he => ha (he ▸ List.mem_cons_self), fun p hp => ⟨?_, ?_⟩⟩
  · rintro rfl
    exact ha (List.mem_cons_of_mem _ hp)
  · rintro rfl
    exact hb hp

end View.Siblings

/-! ### A child that moves to the other of two neighbours -/

/-- A child moves from one of two neighbours to the other one, past the separator between them. -/
structure Shape.Rotation {h : Nat} (a : Shape (h + 1)) (k : Field) (b a' : Shape (h + 1))
    (k' : Field)
    (b' : Shape (h + 1)) (c : Shape h) (parent : PageId) : Prop where
  page_left : a'.page = a.page
  page_right : b'.page = b.page
  line_eq : a'.line ++ .separator k' :: b'.line = a.line ++ .separator k :: b.line
  moved : (Fork.kids a' = Fork.kids a ++ [c] ∧ Fork.kids b = c :: Fork.kids b' ∧ parent = a.page) ∨
    (Fork.kids a = Fork.kids a' ++ [c] ∧ Fork.kids b' = c :: Fork.kids b ∧ parent = b.page)

namespace Shape

variable {h : Nat}

/-- A child has moved from one of two neighbours to the other one: what is below them then. -/
theorem stored_moved {look look' : PageId → Option Node} {keyType : FieldType} {p q : PageId}
    {parent : Option PageId} {xs ys : List (Shape h)} {c : Shape h}
    (hn : ((xs ++ c :: ys).flatMap pages).Nodup)
    (hout : ∀ x ∈ (xs ++ c :: ys).flatMap pages, x ≠ p ∧ x ≠ q)
    (hxs : ∀ d ∈ xs, d.Stored look keyType (some p)) (hc : c.Below look keyType)
    (hys : ∀ d ∈ ys, d.Stored look keyType (some q))
    (hroot : look' c.page = some (c.node keyType parent))
    (hsame : ∀ x, x ≠ p → x ≠ q → x ≠ c.page → look' x = look x) :
    (∀ d ∈ xs, d.Stored look' keyType (some p)) ∧ c.Stored look' keyType parent ∧
      ∀ d ∈ ys, d.Stored look' keyType (some q) := by
  -- only the root of the child that moves is written, and nothing below it
  have hmem : c ∈ xs ++ c :: ys := List.mem_append_right _ List.mem_cons_self
  have hstay : ∀ d ∈ xs ++ c :: ys, d ≠ c → ∀ x ∈ d.pages, look' x = look x := by
    intro d hd hne x hx
    obtain ⟨hxp, hxq⟩ := hout x (List.mem_flatMap.2 ⟨d, hd, hx⟩)
    refine hsame x hxp hxq ?_
    rintro rfl
    exact hne (eq_of_mem_pages hn hd hmem hx c.page_mem_pages)
  rw [List.flatMap_append, List.flatMap_cons] at hn
  obtain ⟨-, hn, hcross⟩ := List.nodup_append.1 hn
  obtain ⟨hnc, -, hcross'⟩ := List.nodup_append.1 hn
  refine ⟨fun d hd => (hxs d hd).congr (hstay d (List.mem_append_left _ hd) ?_),
    ⟨hroot, hc.congr fun x hx => ?_⟩, fun d hd => (hys d hd).congr (hstay d
      (List.mem_append_right _ (List.mem_cons_of_mem _ hd)) ?_)⟩
  · rintro rfl
    exact hcross _ (List.mem_flatMap.2 ⟨d, hd, d.page_mem_pages⟩) _
      (List.mem_append_left _ d.page_mem_pages) rfl
  · obtain ⟨hxp, hxq⟩ := hout x (List.mem_flatMap.2 ⟨c, hmem, c.pagesBelow_subset hx⟩)
    refine hsame x hxp hxq ?_
    rintro rfl
    exact page_not_mem_pagesBelow hnc hx
  · rintro rfl
    exact hcross' _ d.page_mem_pages _ (List.mem_flatMap.2 ⟨d, hd, d.page_mem_pages⟩) rfl

section Rotation

variable {k k' : Field} {p q : PageId}

theorem rotation_left {first c d : Shape h} {xs ys : List (Field × Shape h)} :
    Rotation (inner p first xs) k (inner q c ((k', d) :: ys)) (inner p first (xs ++ [(k, c)])) k'
      (inner q d ys) c p where
  page_left := rfl
  page_right := rfl
  line_eq := by simp
  moved := .inl ⟨by simp [inner, Fork.kids], rfl, rfl⟩

theorem rotation_right {first c d : Shape h} {xs ys : List (Field × Shape h)} :
    Rotation (inner p first (xs ++ [(k', c)])) k (inner q d ys) (inner p first xs) k'
      (inner q c ((k, d) :: ys)) c q where
  page_left := rfl
  page_right := rfl
  line_eq := by simp
  moved := .inr ⟨by simp [inner, Fork.kids], rfl, rfl⟩

end Rotation

namespace Rotation

variable {a b a' b' : Shape (h + 1)} {c : Shape h} {k k' : Field} {p : PageId}

theorem kids_eq (hr : Rotation a k b a' k' b' c p) :
    Fork.kids a' ++ Fork.kids b' = Fork.kids a ++ Fork.kids b := by
  rcases hr.moved with ⟨ha, hb, -⟩ | ⟨ha, hb, -⟩ <;> rw [ha, hb] <;> simp

theorem mem_kids (hr : Rotation a k b a' k' b' c p) : c ∈ Fork.kids a ++ Fork.kids b := by
  rcases hr.moved with ⟨-, hb, -⟩ | ⟨ha, -, -⟩
  · rw [hb]
    exact List.mem_append_right _ List.mem_cons_self
  · rw [ha]
    exact List.mem_append_left _ (List.mem_append_right _ List.mem_cons_self)

theorem perm_pages (hr : Rotation a k b a' k' b' c p) :
    (a'.pages ++ b'.pages).Perm (a.pages ++ b.pages) := by
  have hbelow := congrArg (fun kids => kids.flatMap pages) hr.kids_eq
  simp only [List.flatMap_append] at hbelow
  have hbelow : a'.pagesBelow ++ b'.pagesBelow = a.pagesBelow ++ b.pagesBelow := hbelow
  rw [pages_eq a, pages_eq b, pages_eq a', pages_eq b', hr.page_left, hr.page_right]
  refine List.Perm.cons _ (List.perm_middle.trans ((List.Perm.cons _ ?_).trans
    List.perm_middle.symm))
  rw [hbelow]

end Rotation

end Shape

/-- When two neighbours and the child that has moved are written, both are stored. -/
theorem View.Siblings.stored_rotated {v : View} {H h : Nat} {above : Route H (h + 2)}
    {page : PageId}
    {left : List (Shape (h + 1) × Field)} {a b a' b' : Shape (h + 1)} {k k' : Field}
    {right : List (Field × Shape (h + 1))} {c : Shape h} {p : PageId}
    {look : PageId → Option Node} (hs : v.Siblings above page left a k b right)
    (hr : Shape.Rotation a k b a' k' b' c p)
    (ha : look a.page = some (a'.node v.keyType (some page)))
    (hb : look b.page = some (b'.node v.keyType (some page)))
    (hc : look c.page = some (c.node v.keyType (some p)))
    (hsame : ∀ x, x ≠ a.page → x ≠ b.page → x ≠ c.page → look x = v.node x) :
    a'.Stored look v.keyType (some page) ∧ b'.Stored look v.keyType (some page) := by
  obtain ⟨hnodup, -, hout⟩ := hs.nodup_below
  have hleft := hs.below.1
  have hright := hs.below.2
  rw [Shape.below_succ] at hleft hright
  rw [← hr.page_left] at ha
  rw [← hr.page_right] at hb
  rcases hr.moved with ⟨hka, hkb, rfl⟩ | ⟨hka, hkb, rfl⟩
  · rw [hkb] at hnodup hout hright
    obtain ⟨hxs, hc, hys⟩ := Shape.stored_moved hnodup hout hleft
      (hright c List.mem_cons_self).2 (fun d hd => hright d (List.mem_cons_of_mem _ hd)) hc hsame
    refine ⟨⟨ha, Shape.below_succ.2 ?_⟩, hb, Shape.below_succ.2 ?_⟩
    · rw [hka, show Fork.page a' = a.page from hr.page_left]
      intro d hd
      rcases List.mem_append.1 hd with hd | hd
      · exact hxs d hd
      · rw [List.mem_singleton.1 hd]
        exact hc
    · rw [show Fork.page b' = b.page from hr.page_right]
      exact hys
  · rw [hka, List.append_assoc, List.singleton_append] at hnodup hout
    rw [hka] at hleft
    obtain ⟨hxs, hc, hys⟩ := Shape.stored_moved hnodup hout
      (fun d hd => hleft d (List.mem_append_left _ hd))
      (hleft c (List.mem_append_right _ List.mem_cons_self)).2 hright hc hsame
    refine ⟨⟨ha, Shape.below_succ.2 ?_⟩, hb, Shape.below_succ.2 ?_⟩
    · rw [show Fork.page a' = a.page from hr.page_left]
      exact hxs
    · rw [hkb, show Fork.page b' = b.page from hr.page_right]
      intro d hd
      rcases List.mem_cons.1 hd with rfl | hd
      · exact hc
      · exact hys d hd

/-! ### Children that are all taken over by the left one of two neighbours -/

section Joined

variable {v : View} {H h : Nat} {above : Route H (h + 2)} {page : PageId}
  {left : List (Shape (h + 1) × Field)} {a b : Shape (h + 1)} {k : Field}
  {right : List (Field × Shape (h + 1))}

theorem View.Siblings.nodup_kids_right (hs : v.Siblings above page left a k b right) :
    ((Fork.kids b).flatMap Shape.pages).Nodup := by
  have hnodup := hs.nodup_below.1
  rw [List.flatMap_append] at hnodup
  exact (List.nodup_append.1 hnodup).2.1

/-- When the children of the right one have been linked to the left one, they are all stored below
it. -/
theorem View.Siblings.below_joined {p q : PageId} {first c : Shape h}
    {xs ys : List (Field × Shape h)} {look : PageId → Option Node}
    (hs : v.Siblings above page left (.inner p first xs) k (.inner q c ys) right)
    (hmoved : ∀ x, x ≠ p → x ≠ q → x ∈ (Fork.kids (Shape.inner q c ys)).map Shape.page →
      look x = (v.node x).map (Node.withParent (some p)))
    (hsame : ∀ x, x ≠ p → x ≠ q → x ∉ (Fork.kids (Shape.inner q c ys)).map Shape.page →
      look x = v.node x) :
    (Shape.inner p first (xs ++ (k, c) :: ys)).Below look v.keyType := by
  obtain ⟨hnodup, -, hout⟩ := hs.nodup_below
  have hbelow : ∀ d ∈ Fork.kids (Shape.inner p first xs) ++ Fork.kids (Shape.inner q c ys),
      ∀ x ∈ d.pages, x ≠ p ∧ x ≠ q := fun d hd x hx => hout x (List.mem_flatMap.2 ⟨d, hd, hx⟩)
  rw [List.flatMap_append] at hnodup
  rw [Shape.below_succ, Shape.kids_inner_append p q]
  intro d hd
  rcases List.mem_append.1 hd with hda | hdb
  · -- what was below the left one is not linked to anything else
    refine Shape.Stored.congr (hs.below.1 d hda) fun x hx => ?_
    obtain ⟨hxp, hxq⟩ := hbelow d hd x hx
    refine hsame x hxp hxq fun hmem => ?_
    obtain ⟨d', hd', rfl⟩ := List.mem_map.1 hmem
    exact (List.nodup_append.1 hnodup).2.2 _ (List.mem_flatMap.2 ⟨d, hda, hx⟩) _
      (List.mem_flatMap.2 ⟨d', hd', d'.page_mem_pages⟩) rfl
  · refine Shape.stored_relinked hs.nodup_kids_right hs.below.2 (fun d hdb => ?_)
      (fun d hdb x hx hmem => ?_) d hdb
    · obtain ⟨hxp, hxq⟩ := hbelow d (List.mem_append_right _ hdb) _ d.page_mem_pages
      exact hmoved _ hxp hxq (List.mem_map_of_mem hdb)
    · obtain ⟨hxp, hxq⟩ := hbelow d (List.mem_append_right _ hdb) x (d.pagesBelow_subset hx)
      exact hsame x hxp hxq hmem

end Joined

end RecordIndex
