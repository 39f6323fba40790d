import RecordIndex.Proofs.Descent
import RecordIndex.Proofs.Levels
import RecordIndex.Proofs.RecordEffects
import RecordIndex.Proofs.Siblings
import RecordIndex.Tree.Deletion

/-!
# Deleting keeps a tree well-formed

A node that has lost an entry or a child is mended with a sibling, and the parent after it if the
two have become one. Deleting adds no page and no record, so that the file system has no occasion to
fail.

* `Tree.exists_remedy`: a node that is too small has a sibling to merge with or to borrow from
  (`Tree.Helps`).
* `Tree.yields_mergeLeafPages`, `Tree.yields_mergeInternalPages` and their like: what is left to do
  then.
* `Tree.yields_mendInternal`: the mending upwards, to wherever it ends.
* `Tree.yields_removeKey`: a key is taken out, and all other entries stay.
-/

namespace RecordIndex

/-- The parent `old` has lost a child and waits to be written or mended. The entries are the same, and
no node is left behind. -/
def View.Handed (v v' : View) {H h : Nat} (above : Route H (h + 1)) (parent : Internal)
    (old : Shape (h + 1)) : Prop :=
  v.Keeps v' ∧ v'.root = v.root ∧ ∃ s : Shape (h + 1), parent = s.internal v.keyType above.parent ∧
    v'.Pending above s ∧ (Shape.least above.isTop (h + 1) ≤ s.size + 1 ∧
      s.size ≤ Shape.most (h + 1)) ∧ s.page = old.page ∧ s.kidPages ⊆ old.kidPages ∧
        (above.plug s).entries = (above.plug old).entries ∧
          v.Settles v' (above.plug old).pages (above.plug s).pages

/-- The tree is as it should be, with the entries of a tree from which no node is left behind. -/
def View.Mended (v v' : View) {H : Nat} (old : Shape H) : Prop :=
  v.Keeps v' ∧ ∃ (H' : Nat) (s' : Shape H'), v'.Shaped s' ∧ v.Lowers v' old H' ∧
    s'.entries = old.entries ∧ v.Settles v' old.pages s'.pages

namespace Tree

variable {v : View} {H h : Nat}

/-! ### Reading siblings and choosing among them -/

theorem answers_siblings {α : Type} {read : PageId → TreeAction α} {f : Shape h → α}
    {page : PageId} {left : List (Shape h × Field)} {s : Shape h} {right : List (Field × Shape h)}
    {parent : Option PageId} (hleft : ∀ e ∈ left, Answers (read e.1.page) v (.ok (f e.1)))
    (hright : ∀ e ∈ right, Answers (read e.2.page) v (.ok (f e.2))) :
    Answers (siblings read ((Route.fork page left s right).internal v.keyType parent) left.length) v
      (.ok (left.head?.map fun e => f e.1, right.head?.map fun e => f e.2)) := by
  rw [siblings, Route.leftSibling_fork, Route.rightSibling_fork]
  have hl : Answers ((left.head?.map fun e => e.1.page).mapM read) v
      (.ok (left.head?.map fun e => f e.1)) := by
    cases left with
    | nil => exact answers_pure _
    | cons e left => exact (hleft e List.mem_cons_self).bind (answers_pure _)
  have hr : Answers ((right.head?.map fun e => e.2.page).mapM read) v
      (.ok (right.head?.map fun e => f e.2)) := by
    cases right with
    | nil => exact answers_pure _
    | cons e right => exact (hright e List.mem_cons_self).bind (answers_pure _)
  exact hr.bind (hl.bind (answers_pure _))

/-- The remedy is about a neighbour of the node `s`, which is small enough to be merged with, or has
something to spare. -/
inductive Helps {α : Type} (v : View) {H h : Nat} (f : Shape h → α) (above : Route H (h + 1))
    (page : PageId) (s : Shape h) :
    List (Shape h × Field) → List (Field × Shape h) → Remedy α → Prop
  | mergeRight {left k b right} (hb : v.Siblings above page left s k b right)
      (hsize : Shape.least false h ≤ s.size + b.size ∧ s.size + b.size ≤ Shape.most h) :
      Helps v f above page s left ((k, b) :: right) (.mergeRight (f b))
  | mergeLeft {a k left right} (ha : v.Siblings above page left a k s right)
      (hsize : Shape.least false h ≤ a.size + s.size ∧ a.size + s.size ≤ Shape.most h) :
      Helps v f above page s ((a, k) :: left) right (.mergeLeft (f a))
  | borrowRight {left k b right} (hb : v.Siblings above page left s k b right)
      (hsize : Shape.least false h < b.size ∧ b.size ≤ Shape.most h) :
      Helps v f above page s left ((k, b) :: right) (.borrowRight (f b))
  | borrowLeft {a k left right} (ha : v.Siblings above page left a k s right)
      (hsize : Shape.least false h < a.size ∧ a.size ≤ Shape.most h) :
      Helps v f above page s ((a, k) :: left) right (.borrowLeft (f a))

section Remedy

variable {α : Type} {f : Shape h → α} {page : PageId} {left : List (Shape h × Field)} {s : Shape h}
  {right : List (Field × Shape h)} {above : Route H (h + 1)}

/-- A node that is too small has a sibling: its parent has at least two children. -/
theorem exists_sibling (hs : v.Pending (.down page left right above) s) (f : Shape h → α) :
    (left.head?.map fun e => f e.1).isSome ∨ (right.head?.map fun e => f e.2).isSome := by
  have hleast : 2 ≤ Shape.least above.isTop (h + 1) := by
    cases above.isTop <;> exact Nat.le_of_ble_eq_true rfl
  have hparent := hs.around_occupied.1.1
  cases left with
  | cons e left => exact .inl rfl
  | nil =>
    cases right with
    | cons e right => exact .inr rfl
    | nil => simp only [List.length_nil] at hparent; omega

/-- What suits a node that is too small is about one of its neighbours. -/
theorem helps_of_suits {size : α → Nat} (hf : ∀ c, size (f c) = c.size)
    (hs : v.Pending (.down page left right above) s) (hv : v.Valid) {remedy : Remedy α}
    (hr : remedy.Suits size (Shape.least false h) (Shape.most h) (f s)
      (left.head?.map fun e => f e.1) (right.head?.map fun e => f e.2)) :
    Helps v f above page s left right remedy := by
  obtain ⟨-, hleft, hright, -⟩ := hs.around_occupied
  cases remedy with
  | mergeRight x =>
    obtain ⟨hx, hle⟩ := hr
    cases right with
    | nil => cases hx
    | cons e right =>
      cases hx
      rw [hf, hf] at hle
      have hb := (hright e List.mem_cons_self).1
      exact .mergeRight (.of_right hs hv) ⟨Nat.le_trans hb.1 (Nat.le_add_left ..), hle⟩
  | mergeLeft x =>
    obtain ⟨hx, hle⟩ := hr
    cases left with
    | nil => cases hx
    | cons e left =>
      cases hx
      rw [hf, hf] at hle
      have ha := (hleft e List.mem_cons_self).1
      exact .mergeLeft (.of_left hs hv) ⟨Nat.le_trans ha.1 (Nat.le_add_right ..), hle⟩
  | borrowRight x =>
    obtain ⟨hx, hlt⟩ := hr
    cases right with
    | nil => cases hx
    | cons e right =>
      cases hx
      rw [hf] at hlt
      exact .borrowRight (.of_right hs hv) ⟨hlt, (hright e List.mem_cons_self).1.2⟩
  | borrowLeft x =>
    obtain ⟨hx, hlt⟩ := hr
    cases left with
    | nil => cases hx
    | cons e left =>
      cases hx
      rw [hf] at hlt
      exact .borrowLeft (.of_left hs hv) ⟨hlt, (hleft e List.mem_cons_self).1.2⟩

/-- A node that is too small has a sibling that it can be merged with, or that has enough. -/
theorem exists_remedy (f : Shape h → α) {size : α → Nat} (hf : ∀ c, size (f c) = c.size)
    (hs : v.Pending (.down page left right above) s) (hv : v.Valid)
    (hsize : s.size < Shape.least false h) :
    ∃ remedy, Remedy.choose size (Shape.least false h) (Shape.most h) (f s)
        (left.head?.map fun e => f e.1) (right.head?.map fun e => f e.2) = some remedy ∧
      Helps v f above page s left right remedy := by
  have hroom : size (f s) + Shape.least false h ≤ Shape.most h := by
    have : 2 * Shape.least false h ≤ Shape.most h + 1 := by
      cases h <;> exact Nat.le_of_ble_eq_true rfl
    rw [hf]
    omega
  obtain ⟨remedy, hchoice⟩ := Remedy.exists_choose (exists_sibling hs f) hroom
  exact ⟨remedy, hchoice, helps_of_suits hf hs hv (Remedy.suits_of_choose hchoice)⟩

/-- The place of a node among the children of its parent. -/
theorem indexOfChild_of_pending (hs : v.Pending (.down page left right above) s)
    {parent : Option PageId} :
    ((Route.fork page left s right).internal v.keyType parent).indexOfChild s.page =
      .ok left.length := by
  refine Route.indexOfChild_fork (View.Siblings.page_not_mem_left fun hmem => ?_)
  have hpage : s.page ∈ Route.pages (.down page left right above) :=
    List.mem_append_left _ (List.mem_append_left _ (List.mem_cons_of_mem _ hmem))
  exact hs.ne_of_mem_around hpage s.page_mem_pages rfl

/-- The parent of a node in memory and its siblings are read before it is mended. -/
theorem yields_family (f : Shape h → α) {read : PageId → TreeAction α}
    {next : Internal → Option α × Option α → TreeAction Unit} {Q : Unit → View → Prop}
    {E : View → Prop} (hs : v.Pending (.down page left right above) s)
    (hread : ∀ c : Shape h, c.Stored v.node v.keyType (some page) →
      Answers (read c.page) v (.ok (f c)))
    (hnext : Yields (next ((Route.fork page left s right).internal v.keyType above.parent)
      (left.head?.map fun e => f e.1, right.head?.map fun e => f e.2)) v Q E) :
    Yields (fetchInternal page >>= fun parent =>
      Action.ofExcept (parent.indexOfChild s.page) >>= fun slot =>
        siblings read parent slot >>= next parent) v Q E := by
  obtain ⟨hparent, hleft, hright, -⟩ := hs.around
  refine (answers_fetchInternal hparent).turns.bind_yields ?_
  refine (answers_ofExcept (indexOfChild_of_pending hs)).turns.bind_yields ?_
  exact (answers_siblings (fun e he => hread _ (hleft e he))
    fun e he => hread _ (hright e he)).turns.bind_yields hnext

end Remedy

/-- Where two neighbours become one on the page of the left one, the parent has lost a child. -/
theorem handed_of_exchanges {above : Route H (h + 1)} {page : PageId}
    {left : List (Shape h × Field)} {a b c : Shape h} {k : Field} {right : List (Field × Shape h)}
    {v' : View} (hs : v.Siblings above page left a k b right) (hv : v.Valid)
    (hx : v.Exchanges v' page a k b c []) (hpage : c.page = a.page) :
    v.Handed v' above ((Route.fork page left a right).internal v.keyType above.parent)
      (Route.fork page left a ((k, b) :: right)) := by
  refine ⟨hx.keeps, hx.root_eq, _, ?_, hs.pending hv hx, hs.size_merged, ?_, ?_,
    hs.entries_plug hx, hx.settles⟩
  · rw [Route.internal_fork, Route.internal_fork, hpage]
    rfl
  · rw [Route.page_fork, Route.page_fork]
  · rw [Route.kidPages_fork, Route.kidPages_fork, hpage]
    exact (((List.sublist_cons_self _ _).cons_cons _).append_left _).subset

/-- The parent of two neighbours is written when they have been. -/
theorem yields_putParent {above : Route H (h + 1)} {page : PageId} {left : List (Shape h × Field)}
    {a b c d : Shape h} {k k' : Field} {right : List (Field × Shape h)} {v' : View}
    (hs : v.Siblings above page left a k b right) (hv : v.Valid)
    (hx : v.Exchanges v' page a k b c [(k', d)]) :
    Yields
      (putInternal ((Route.fork page left c ((k', d) :: right)).internal v.keyType above.parent))
      v' (fun _ v'' => v.Mended v'' (above.plug (Route.fork page left a ((k, b) :: right))))
      (fun _ => False) := by
  have hpending : v'.Pending above (Route.fork page left c ((k', d) :: right)) := hs.pending hv hx
  have hsettles : v.Settles v' _ (above.plug (Route.fork page left c ((k', d) :: right))).pages :=
    hx.settles
  have hsize := hs.size_le
  rw [← hx.keeps.keyType]
  refine (turns_putInternal ?_ hpending.hasPage).yields ⟨hx.keeps.trans (View.keeps_put _ _), H, _,
    hpending.put ?_, .inl ⟨rfl, hx.root_eq⟩, hs.entries_plug hx,
    hsettles.trans (View.settles_put_plug v' above _ rfl) hx.keeps⟩
  · refine hpending.encodable ?_ _
    rw [Route.size_fork, List.length_cons]
    omega
  · rw [Route.size_fork, List.length_cons]
    omega

/-! ### Leaves -/

section Leaves

variable {above : Route H 1} {page : PageId} {left : List (Shape 0 × Field)} {a b : Shape 0}
  {k : Field} {right : List (Field × Shape 0)}

/-- One leaf with the entries of two, when it is written and the page of the other one given up. -/
theorem exchanges_joined_twig {p q : PageId} {xs ys : List (Field × RecordId)}
    (hs : v.Siblings above page left (Shape.twig p xs) k (Shape.twig q ys) right)
    (hsize : Shape.least false 0 ≤ xs.length + ys.length ∧ xs.length + ys.length ≤ Shape.most 0) :
    v.Exchanges ((v.put ((Shape.twig p (xs ++ ys)).node v.keyType (some page))).drop q) page
      (.twig p xs) k (.twig q ys) (.twig p (xs ++ ys)) [] := by
  have hne : p ≠ q := by
    have hpages := hs.nodup_pages
    simpa using hpages
  have hlook : ∀ x, ((v.put ((Shape.twig p (xs ++ ys)).node v.keyType (some page))).drop q).node x =
      if x = q then none
      else if x = p then some ((Shape.twig p (xs ++ ys)).node v.keyType (some page))
      else v.node x := by
    intro x
    simp only [View.node_drop, View.node_put, Shape.page_node, Shape.page_twig]
  exact
    { keeps := (View.keeps_put _ _).trans (View.keeps_drop _ q)
      root_eq := rfl
      pageCount_eq := rfl
      line := by
        rw [List.flatMap_nil, List.append_nil]
        exact Shape.replaces_joined
      count_le := fun x => by simp [List.count_cons]
      stored := ⟨(hlook p).trans ((if_neg hne).trans (if_pos rfl)), trivial⟩
      occupied := ⟨by simpa using hsize, trivial⟩
      rest := fun e he => by cases he
      untouched := fun x _ hout => by
        have hxp : x ≠ p := fun he => hout.1 (by simp [he])
        have hxq : x ≠ q := fun he => hout.2 (by simp [he])
        rw [hlook, if_neg hxq, if_neg hxp]
      vacated := fun x hx hnot => by
        simp only [Shape.pages_twig, List.flatMap_nil, List.append_nil, List.mem_append,
          List.mem_singleton] at hx hnot
        exact (hlook x).trans (if_pos (hx.resolve_left hnot)) }

/-- Two leaves become one. -/
theorem yields_mergeLeafPages (hs : v.Siblings above page left a k b right)
    (hsize : Shape.least false 0 ≤ a.size + b.size ∧ a.size + b.size ≤ Shape.most 0) :
    Yields (mergeLeafPages
        ((Route.fork page left a ((k, b) :: right)).internal v.keyType above.parent)
        (a.leaf v.keyType (some page)) (b.leaf v.keyType (some page))) v
      (fun parent v' => v.Handed v' above parent (Route.fork page left a ((k, b) :: right)))
      (fun _ => False) := by
  refine yields_of_valid fun hv => ?_
  obtain ⟨p, xs, rfl⟩ : ∃ p xs, a = Shape.twig p xs := ⟨_, _, rfl⟩
  obtain ⟨q, ys, rfl⟩ : ∃ q ys, b = Shape.twig q ys := ⟨_, _, rfl⟩
  have hx := exchanges_joined_twig hs hsize
  simp only [mergeLeafPages, hs.separatorIndex_leaf, Action.ofExcept_ok, pure_bind,
    Route.removeChild_fork, Action.ofChecked_ok, Shape.join_twig]
  refine (turns_putLeaf (hs.encodable hx) hs.hasPage.1).bind_yields ?_
  refine (turns_releasePage ((View.keeps_put _ _).hasPage hs.hasPage.2)).bind_yields ?_
  exact (turns_pure _).yields (handed_of_exchanges hs hv hx rfl)

/-- Two neighbouring leaves on the pages that they were on, with their entries divided in another
way. -/
theorem exchanges_divided (hs : v.Siblings above page left a k b right)
    {xs ys : List (Field × RecordId)} {e e' : Field × RecordId}
    (heq : a.entries ++ b.entries = (xs ++ [e]) ++ e' :: ys)
    (hxs : Shape.least false 0 ≤ xs.length + 1 ∧ xs.length + 1 ≤ Shape.most 0)
    (hys : Shape.least false 0 ≤ ys.length + 1 ∧ ys.length + 1 ≤ Shape.most 0) :
    v.Exchanges ((v.put ((Shape.twig a.page (xs ++ [e])).node v.keyType (some page))).put
      ((Shape.twig b.page (e' :: ys)).node v.keyType (some page))) page a k b
      (.twig a.page (xs ++ [e])) [(e'.1, .twig b.page (e' :: ys))] := by
  have hne : a.page ≠ b.page := (List.nodup_append.1 hs.nodup_pages).2.2 _ a.page_mem_pages
    _ b.page_mem_pages
  have hlook : ∀ x, ((v.put ((Shape.twig a.page (xs ++ [e])).node v.keyType (some page))).put
      ((Shape.twig b.page (e' :: ys)).node v.keyType (some page))).node x =
      if x = b.page then some ((Shape.twig b.page (e' :: ys)).node v.keyType (some page))
      else if x = a.page then some ((Shape.twig a.page (xs ++ [e])).node v.keyType (some page))
      else v.node x := by
    intro x
    simp only [View.node_put, Shape.page_node, Shape.page_twig]
  have hpages : (Shape.twig a.page (xs ++ [e])).pages ++
      [(e'.1, Shape.twig b.page (e' :: ys))].flatMap (fun e => e.2.pages) = a.pages ++ b.pages :=
    rfl
  exact
    { keeps := (View.keeps_put _ _).trans (View.keeps_put _ _)
      root_eq := rfl
      pageCount_eq := rfl
      line := by
        rw [List.flatMap_singleton]
        exact Shape.replaces_divided heq
      count_le := fun x => (congrArg _ hpages).le
      stored := ⟨(hlook _).trans ((if_neg hne).trans (if_pos rfl)), trivial⟩
      occupied := ⟨by simpa using hxs, trivial⟩
      rest := fun d hd => by
        obtain rfl := List.mem_singleton.1 hd
        exact ⟨⟨(hlook _).trans (if_pos rfl), trivial⟩, by simpa using hys, trivial⟩
      untouched := fun x _ hout => by
        have hxa : x ≠ a.page := fun he => hout.1 (he ▸ a.page_mem_pages)
        have hxb : x ≠ b.page := fun he => hout.2 (he ▸ b.page_mem_pages)
        rw [hlook, if_neg hxb, if_neg hxa]
      vacated := fun x hx hnot => absurd (hpages ▸ hx) hnot }

/-- Two neighbouring leaves are written with their entries divided in another way. -/
theorem yields_writeLeaves (hs : v.Siblings above page left a k b right)
    {xs ys : List (Field × RecordId)} {e e' : Field × RecordId}
    (heq : a.entries ++ b.entries = (xs ++ [e]) ++ e' :: ys)
    (hxs : Shape.least false 0 ≤ xs.length + 1 ∧ xs.length + 1 ≤ Shape.most 0)
    (hys : Shape.least false 0 ≤ ys.length + 1 ∧ ys.length + 1 ≤ Shape.most 0) :
    Yields (do
        putLeaf ((Shape.twig a.page (xs ++ [e])).leaf v.keyType (some page))
        putLeaf ((Shape.twig b.page (e' :: ys)).leaf v.keyType (some page))
        putInternal ((Route.fork page left (Shape.twig a.page (xs ++ [e]))
          ((e'.1, Shape.twig b.page (e' :: ys)) :: right)).internal v.keyType above.parent)) v
      (fun _ v' => v.Mended v' (above.plug (Route.fork page left a ((k, b) :: right))))
      (fun _ => False) := by
  refine yields_of_valid fun hv => ?_
  have hx := exchanges_divided hs heq hxs hys
  refine (turns_putLeaf (hs.encodable hx) hs.hasPage.1).bind_yields ?_
  refine (turns_putLeaf (hs.encodable_rest hx List.mem_cons_self)
    ((View.keeps_put _ _).hasPage hs.hasPage.2)).bind_yields ?_
  exact yields_putParent hs hv hx

/-- A leaf takes the first entry of its right sibling. -/
theorem yields_takeFromRightLeaf (hs : v.Siblings above page left a k b right)
    (ha : Shape.least false 0 ≤ a.size + 1 ∧ a.size + 1 ≤ Shape.most 0)
    (hb : Shape.least false 0 < b.size ∧ b.size ≤ Shape.most 0) :
    Yields (takeFromRightLeaf
        ((Route.fork page left a ((k, b) :: right)).internal v.keyType above.parent)
        (a.leaf v.keyType (some page)) (b.leaf v.keyType (some page))) v
      (fun _ v' => v.Mended v' (above.plug (Route.fork page left a ((k, b) :: right))))
      (fun _ => False) := by
  obtain ⟨p, xs, rfl⟩ : ∃ p xs, a = Shape.twig p xs := ⟨_, _, rfl⟩
  obtain ⟨q, es, rfl⟩ : ∃ q es, b = Shape.twig q es := ⟨_, _, rfl⟩
  have hlen : 3 < es.length := hb.1
  obtain ⟨e, e', ys, rfl⟩ : ∃ e e' ys, es = e :: e' :: ys := by
    match es, hlen with
    | e :: e' :: ys, _ => exact ⟨e, e', ys, rfl⟩
  have hwrite := @yields_writeLeaves _ _ _ _ _ _ _ _ _ hs xs ys e e' (by simp) ha
    ⟨Nat.le_of_lt_succ hb.1, Nat.le_of_succ_le hb.2⟩
  have hparent := @Route.internal_fork_congr _ v.keyType page left (Shape.twig p xs)
    (Shape.twig q (e :: e' :: ys)) (Shape.twig p (xs ++ [e])) (Shape.twig q (e' :: ys)) e'.1 right
    above.parent rfl rfl
  simp only [takeFromRightLeaf, hs.separatorIndex_leaf, Action.ofExcept_ok, pure_bind,
    Shape.shiftLeft_twig, Action.ofChecked_ok, Route.setKey_fork, ← hparent]
  exact hwrite

/-- A leaf takes the last entry of its left sibling. -/
theorem yields_takeFromLeftLeaf (hs : v.Siblings above page left a k b right)
    (ha : Shape.least false 0 < a.size ∧ a.size ≤ Shape.most 0)
    (hb : Shape.least false 0 ≤ b.size + 1 ∧ b.size + 1 ≤ Shape.most 0) :
    Yields (takeFromLeftLeaf
        ((Route.fork page left a ((k, b) :: right)).internal v.keyType above.parent)
        (a.leaf v.keyType (some page)) (b.leaf v.keyType (some page))) v
      (fun _ v' => v.Mended v' (above.plug (Route.fork page left a ((k, b) :: right))))
      (fun _ => False) := by
  obtain ⟨p, es, rfl⟩ : ∃ p es, a = Shape.twig p es := ⟨_, _, rfl⟩
  obtain ⟨q, ys, rfl⟩ : ∃ q ys, b = Shape.twig q ys := ⟨_, _, rfl⟩
  have hlen : 1 < es.length := Nat.lt_trans (Nat.le_of_ble_eq_true rfl) ha.1
  obtain ⟨xs, e, e', rfl⟩ : ∃ xs e e', es = xs ++ [e] ++ [e'] := by
    rcases List.eq_nil_or_concat es with rfl | ⟨es, e', rfl⟩
    · cases hlen
    · rcases List.eq_nil_or_concat es with rfl | ⟨xs, e, rfl⟩
      · exact absurd hlen (Nat.lt_irrefl 1)
      · exact ⟨xs, e, e', by simp⟩
  have hwrite := @yields_writeLeaves _ _ _ _ _ _ _ _ _ hs xs ys e e' (by simp)
    (by simp only [Shape.size_twig, List.length_append, List.length_singleton] at ha; omega) hb
  have hparent := @Route.internal_fork_congr _ v.keyType page left
    (Shape.twig p (xs ++ [e] ++ [e'])) (Shape.twig q ys) (Shape.twig p (xs ++ [e]))
    (Shape.twig q (e' :: ys)) e'.1 right above.parent rfl rfl
  simp only [takeFromLeftLeaf, hs.separatorIndex_leaf, Action.ofExcept_ok, pure_bind,
    Shape.shiftRight_twig, Action.ofChecked_ok, Route.setKey_fork, ← hparent]
  exact hwrite

end Leaves

/-! ### Internal nodes -/

section Internals

variable {above : Route H (h + 2)} {page : PageId} {left : List (Shape (h + 1) × Field)}
  {a b : Shape (h + 1)} {k : Field} {right : List (Field × Shape (h + 1))}

/-- One internal node with the children of two, when those of the right one have been linked to it,
it is written, and the page of the other one given up. -/
theorem exchanges_joined_inner {p q : PageId} {first c : Shape h} {xs ys : List (Field × Shape h)}
    (hs : v.Siblings above page left (Shape.inner p first xs) k (Shape.inner q c ys) right)
    (hsize : Shape.least false (h + 1) ≤ (Shape.inner p first (xs ++ (k, c) :: ys)).size ∧
      (Shape.inner p first (xs ++ (k, c) :: ys)).size ≤ Shape.most (h + 1)) :
    v.Exchanges
      (((v.relinkAll ((Fork.kids (Shape.inner q c ys)).map Shape.page) (some p)).put
        ((Shape.inner p first (xs ++ (k, c) :: ys)).node v.keyType (some page))).drop q) page
      (.inner p first xs) k (.inner q c ys) (.inner p first (xs ++ (k, c) :: ys)) [] := by
  obtain ⟨-, hne, -⟩ := hs.nodup_below
  have hlook : ∀ x, (((v.relinkAll ((Fork.kids (Shape.inner q c ys)).map Shape.page) (some p)).put
      ((Shape.inner p first (xs ++ (k, c) :: ys)).node v.keyType (some page))).drop q).node x =
      if x = q then none
      else if x = p then
        some ((Shape.inner p first (xs ++ (k, c) :: ys)).node v.keyType (some page))
      else if x ∈ (Fork.kids (Shape.inner q c ys)).map Shape.page then
        (v.node x).map (Node.withParent (some p))
      else v.node x := by
    intro x
    simp only [View.node_drop, View.node_put, View.node_relinkAll, Shape.page_node,
      Shape.page_inner]
  have hsame : ∀ x, x ≠ p → x ≠ q → x ∉ (Fork.kids (Shape.inner q c ys)).map Shape.page →
      _ = v.node x := fun x hxp hxq hmem =>
    (hlook x).trans ((if_neg hxq).trans ((if_neg hxp).trans (if_neg hmem)))
  -- one page fewer
  have hpages : (Shape.inner p first (xs ++ (k, c) :: ys)).pages = p ::
      ((Shape.inner p first xs).pagesBelow ++ (Shape.inner q c ys).pagesBelow) :=
    Shape.pages_inner_append ..
  exact
    { keeps := (View.keeps_relinkAll ..).trans ((View.keeps_put _ _).trans (View.keeps_drop _ q))
      root_eq := rfl
      pageCount_eq := rfl
      line := by
        rw [List.flatMap_nil, List.append_nil]
        exact .of_eq (Shape.line_inner_append ..)
      count_le := fun x => by
        rw [List.flatMap_nil, List.append_nil, hpages, Shape.pages_eq,
          Shape.pages_eq (Shape.inner q c ys)]
        simp only [List.count_append, List.count_cons, Shape.page_inner]
        omega
      stored := ⟨(hlook p).trans ((if_neg hne).trans (if_pos rfl)),
        hs.below_joined (fun x hxp hxq hmem =>
          (hlook x).trans ((if_neg hxq).trans ((if_neg hxp).trans (if_pos hmem)))) hsame⟩
      occupied := by
        refine ⟨hsize, fun d hd => ?_⟩
        rw [Shape.kids_inner_append p q] at hd
        exact (List.mem_append.1 hd).elim (hs.filled.1 d) (hs.filled.2 d)
      rest := fun e he => by cases he
      untouched := fun x _ hout => by
        refine hsame x (fun he => hout.1 (he ▸ Shape.page_mem_pages _))
          (fun he => hout.2 (he ▸ Shape.page_mem_pages _)) fun hmem => ?_
        obtain ⟨d, hd, rfl⟩ := List.mem_map.1 hmem
        exact hout.2 (Shape.mem_pages_of_mem_kids hd d.page_mem_pages)
      vacated := fun x hx hnot => by
        rw [List.flatMap_nil, List.append_nil, hpages] at hnot
        rw [Shape.pages_eq, Shape.pages_eq (Shape.inner q c ys)] at hx
        simp only [List.mem_append, List.mem_cons, Shape.page_inner] at hx hnot
        have hxq : x = q := by tauto
        exact (hlook x).trans (if_pos hxq) }

/-- Two internal nodes become one. -/
theorem yields_mergeInternalPages (hs : v.Siblings above page left a k b right)
    (hsize : Shape.least false (h + 1) ≤ a.size + b.size ∧ a.size + b.size ≤ Shape.most (h + 1)) :
    Yields (mergeInternalPages
        ((Route.fork page left a ((k, b) :: right)).internal v.keyType above.parent)
        (a.internal v.keyType (some page)) (b.internal v.keyType (some page))) v
      (fun parent v' => v.Handed v' above parent (Route.fork page left a ((k, b) :: right)))
      (fun _ => False) := by
  refine yields_of_valid fun hv => ?_
  obtain ⟨p, first, xs, rfl⟩ : ∃ p first xs, a = Shape.inner p first xs := ⟨_, _, _, rfl⟩
  obtain ⟨q, c, ys, rfl⟩ : ∃ q c ys, b = Shape.inner q c ys := ⟨_, _, _, rfl⟩
  have hx := exchanges_joined_inner hs (Shape.size_inner_append p q first c k xs ys ▸ hsize)
  have hrelink := turns_relinkAll (some p) (Shape.nodup_map_page hs.nodup_kids_right) (v := v) (by
    intro x hx
    obtain ⟨d, hd, rfl⟩ := List.mem_map.1 hx
    exact ⟨_, (hs.below.2 d hd).1⟩)
  simp only [mergeInternalPages, hs.separatorIndex_internal, Action.ofExcept_ok, pure_bind,
    Route.removeChild_fork, Action.ofChecked_ok, Shape.join_inner]
  refine Turns.bind_yields hrelink ?_
  refine (turns_putInternal (hs.encodable hx)
    ((View.keeps_relinkAll ..).hasPage hs.hasPage.1)).bind_yields ?_
  refine (turns_releasePage (((View.keeps_relinkAll ..).trans
    (View.keeps_put _ _)).hasPage hs.hasPage.2)).bind_yields ?_
  exact (turns_pure _).yields (handed_of_exchanges hs hv hx rfl)

/-- Two neighbouring internal nodes on the pages that they were on, after a child has moved from one
to the other and has been linked to its new parent. -/
theorem exchanges_rotated (hs : v.Siblings above page left a k b right) {a' b' : Shape (h + 1)}
    {c : Shape h} {k' : Field} {p : PageId} (hr : Shape.Rotation a k b a' k' b' c p)
    (ha : Shape.least false (h + 1) ≤ a'.size ∧ a'.size ≤ Shape.most (h + 1))
    (hb : Shape.least false (h + 1) ≤ b'.size ∧ b'.size ≤ Shape.most (h + 1)) :
    v.Exchanges (((v.put (c.node v.keyType (some p))).put (a'.node v.keyType (some page))).put
      (b'.node v.keyType (some page))) page a k b a' [(k', b')] := by
  obtain ⟨-, hne, hout⟩ := hs.nodup_below
  have hfilled : ∀ d ∈ Fork.kids a' ++ Fork.kids b', d.Occupied false := by
    rw [hr.kids_eq]
    exact fun d hd => (List.mem_append.1 hd).elim (hs.filled.1 d) (hs.filled.2 d)
  obtain ⟨hca, hcb⟩ := hout c.page (List.mem_flatMap.2 ⟨c, hr.mem_kids, c.page_mem_pages⟩)
  have hlook : ∀ x, (((v.put (c.node v.keyType (some p))).put (a'.node v.keyType (some page))).put
      (b'.node v.keyType (some page))).node x =
      if x = b.page then some (b'.node v.keyType (some page))
      else if x = a.page then some (a'.node v.keyType (some page))
      else if x = c.page then some (c.node v.keyType (some p))
      else v.node x := by
    intro x
    simp only [View.node_put, Shape.page_node, hr.page_left, hr.page_right]
  have hsame : ∀ x, x ≠ a.page → x ≠ b.page → x ≠ c.page → _ = v.node x := fun x hxa hxb hxc =>
    (hlook x).trans ((if_neg hxb).trans ((if_neg hxa).trans (if_neg hxc)))
  obtain ⟨hleft, hright⟩ := hs.stored_rotated hr
    ((hlook _).trans ((if_neg hne).trans (if_pos rfl))) ((hlook _).trans (if_pos rfl))
    ((hlook _).trans ((if_neg hcb).trans ((if_neg hca).trans (if_pos rfl)))) hsame
  have hpages : (a'.pages ++ [(k', b')].flatMap fun e => e.2.pages).Perm (a.pages ++ b.pages) := by
    rw [List.flatMap_singleton]
    exact hr.perm_pages
  exact
    { keeps := (View.keeps_put _ _).trans ((View.keeps_put _ _).trans (View.keeps_put _ _))
      root_eq := rfl
      pageCount_eq := rfl
      line := by
        rw [List.flatMap_singleton]
        exact .of_eq hr.line_eq
      count_le := fun x => (hpages.count_eq x).le
      stored := hleft
      occupied := ⟨ha, fun d hd => hfilled d (List.mem_append_left _ hd)⟩
      rest := fun e he => by
        obtain rfl := List.mem_singleton.1 he
        exact ⟨hright, hb, fun d hd => hfilled d (List.mem_append_right _ hd)⟩
      untouched := fun x _ hx => by
        refine hsame x (fun he => hx.1 (he ▸ a.page_mem_pages))
          (fun he => hx.2 (he ▸ b.page_mem_pages)) ?_
        rintro rfl
        rcases List.mem_append.1 hr.mem_kids with hmem | hmem
        · exact hx.1 (Shape.mem_pages_of_mem_kids hmem c.page_mem_pages)
        · exact hx.2 (Shape.mem_pages_of_mem_kids hmem c.page_mem_pages)
      vacated := fun x hx hnot => absurd (hpages.mem_iff.2 hx) hnot }

/-- Two neighbouring internal nodes are written after a child has moved from one to the other. -/
theorem yields_writeInternals (hs : v.Siblings above page left a k b right) {a' b' : Shape (h + 1)}
    {c : Shape h} {k' : Field} {p : PageId} (hr : Shape.Rotation a k b a' k' b' c p)
    (ha : Shape.least false (h + 1) ≤ a'.size ∧ a'.size ≤ Shape.most (h + 1))
    (hb : Shape.least false (h + 1) ≤ b'.size ∧ b'.size ≤ Shape.most (h + 1)) :
    Yields (do
        relink c.page (some p)
        putInternal (a'.internal v.keyType (some page))
        putInternal (b'.internal v.keyType (some page))
        putInternal
          ((Route.fork page left a' ((k', b') :: right)).internal v.keyType above.parent)) v
      (fun _ v' => v.Mended v' (above.plug (Route.fork page left a ((k, b) :: right))))
      (fun _ => False) := by
  refine yields_of_valid fun hv => ?_
  have hx := exchanges_rotated hs hr ha hb
  obtain ⟨parent, hc⟩ : ∃ parent, v.node c.page = some (c.node v.keyType parent) := by
    rcases List.mem_append.1 hr.mem_kids with hmem | hmem
    · exact ⟨_, (hs.below.1 c hmem).1⟩
    · exact ⟨_, (hs.below.2 c hmem).1⟩
  have hrelink := turns_relink hc (some p)
  rw [Shape.withParent_node] at hrelink
  have hpageLeft : v.HasPage a'.page := hr.page_left ▸ hs.hasPage.1
  have hpageRight : v.HasPage b'.page := hr.page_right ▸ hs.hasPage.2
  refine hrelink.bind_yields ?_
  refine (turns_putInternal (hs.encodable hx)
    ((View.keeps_put _ _).hasPage hpageLeft)).bind_yields ?_
  refine (turns_putInternal (hs.encodable_rest hx List.mem_cons_self) (((View.keeps_put _ _).trans
    (View.keeps_put _ _)).hasPage hpageRight)).bind_yields ?_
  exact yields_putParent hs hv hx

/-- An internal node takes the first child of its right sibling. -/
theorem yields_takeFromRightInternal (hs : v.Siblings above page left a k b right)
    (ha : Shape.least false (h + 1) ≤ a.size + 1 ∧ a.size + 1 ≤ Shape.most (h + 1))
    (hb : Shape.least false (h + 1) < b.size ∧ b.size ≤ Shape.most (h + 1)) :
    Yields (takeFromRightInternal
        ((Route.fork page left a ((k, b) :: right)).internal v.keyType above.parent)
        (a.internal v.keyType (some page)) (b.internal v.keyType (some page))) v
      (fun _ v' => v.Mended v' (above.plug (Route.fork page left a ((k, b) :: right))))
      (fun _ => False) := by
  obtain ⟨p, first, xs, rfl⟩ : ∃ p first xs, a = Shape.inner p first xs := ⟨_, _, _, rfl⟩
  obtain ⟨q, c, es, rfl⟩ : ∃ q c es, b = Shape.inner q c es := ⟨_, _, _, rfl⟩
  rw [Shape.size_inner] at ha hb
  obtain ⟨⟨k', d⟩, ys, rfl⟩ : ∃ e ys, es = e :: ys := by
    cases es with
    | nil => exact absurd hb.1 (Nat.not_lt.2 (Nat.le_of_ble_eq_true rfl))
    | cons e ys => exact ⟨e, ys, rfl⟩
  have hwrite := yields_writeInternals hs Shape.rotation_left
    (by simpa using ha) (by simp only [List.length_cons] at hb; simp only [Shape.size_inner]; omega)
  have hparent := @Route.internal_fork_congr _ v.keyType page left (Shape.inner p first xs)
    (Shape.inner q c ((k', d) :: ys)) (Shape.inner p first (xs ++ [(k, c)])) (Shape.inner q d ys) k'
    right above.parent rfl rfl
  simp only [takeFromRightInternal, hs.separatorIndex_internal, Action.ofExcept_ok, pure_bind,
    Route.getKey_fork, Shape.shiftLeft_inner, Action.ofChecked_ok, Route.setKey_fork, ← hparent]
  exact hwrite

/-- An internal node takes the last child of its left sibling. -/
theorem yields_takeFromLeftInternal (hs : v.Siblings above page left a k b right)
    (ha : Shape.least false (h + 1) < a.size ∧ a.size ≤ Shape.most (h + 1))
    (hb : Shape.least false (h + 1) ≤ b.size + 1 ∧ b.size + 1 ≤ Shape.most (h + 1)) :
    Yields (takeFromLeftInternal
        ((Route.fork page left a ((k, b) :: right)).internal v.keyType above.parent)
        (a.internal v.keyType (some page)) (b.internal v.keyType (some page))) v
      (fun _ v' => v.Mended v' (above.plug (Route.fork page left a ((k, b) :: right))))
      (fun _ => False) := by
  obtain ⟨p, first, es, rfl⟩ : ∃ p first es, a = Shape.inner p first es := ⟨_, _, _, rfl⟩
  obtain ⟨q, d, ys, rfl⟩ : ∃ q d ys, b = Shape.inner q d ys := ⟨_, _, _, rfl⟩
  rw [Shape.size_inner] at ha hb
  obtain ⟨xs, ⟨k', c⟩, rfl⟩ : ∃ xs e, es = xs ++ [e] := by
    rcases List.eq_nil_or_concat es with rfl | ⟨xs, e, rfl⟩
    · exact absurd ha.1 (Nat.not_lt.2 (Nat.le_of_ble_eq_true rfl))
    · exact ⟨xs, e, List.concat_eq_append⟩
  have hwrite := yields_writeInternals hs Shape.rotation_right
    (by simp only [List.length_append, List.length_singleton] at ha; simp only [Shape.size_inner]
        omega) (by simpa using hb)
  have hparent := @Route.internal_fork_congr _ v.keyType page left
    (Shape.inner p first (xs ++ [(k', c)])) (Shape.inner q d ys) (Shape.inner p first xs)
    (Shape.inner q c ((k, d) :: ys)) k' right above.parent rfl rfl
  simp only [takeFromLeftInternal, hs.separatorIndex_internal, Action.ofExcept_ok, pure_bind,
    Route.getKey_fork, Shape.shiftRight_inner, Action.ofChecked_ok, Route.setKey_fork, ← hparent]
  exact hwrite

end Internals

/-! ### Mending upwards -/

/-- The view with the root on the page `p` given up for its only child. -/
def lower (v : View) (p : PageId) (c : Shape h) : View :=
  ((v.put (c.node v.keyType none)).setRoot c.page).drop p

theorem keeps_lower (v : View) (p : PageId) (c : Shape h) : v.Keeps (lower v p c) :=
  (View.keeps_put _ _).trans ((View.keeps_setRoot _ _).trans (View.keeps_drop _ p))

theorem node_lower (v : View) (p : PageId) (c : Shape h) (x : PageId) : (lower v p c).node x =
    if x = p then none else if x = c.page then some (c.node v.keyType none) else v.node x := by
  simp only [lower, View.node_drop, View.node_setRoot, View.node_put, Shape.page_node]

section Lower

variable {p : PageId} {c : Shape h}

/-- The only child stands at the root, with nothing above it. -/
theorem shaped_lower (hs : v.Pending .top (Shape.inner p c [])) : (lower v p c).Shaped c := by
  have hnodup := hs.nodup_pages
  rw [Shape.pages_inner, List.flatMap_nil, List.append_nil, List.nodup_cons] at hnodup
  have hc : c.Stored v.node v.keyType (some p) := hs.below c List.mem_cons_self
  have hline : Route.before (.top : Route (h + 1) (h + 1)) ++ (Shape.inner p c []).line ++
      Route.after (.top : Route (h + 1) (h + 1)) = c.line := by simp [Route.before, Route.after]
  have hne : ∀ x ∈ c.pages, x ≠ p := fun x hx he => hnodup.1 (he ▸ hx)
  refine ⟨rfl, ⟨?_, hc.2.congr fun x hx => ?_⟩, hnodup.2, hline ▸ hs.ascending,
    Shape.Occupied.of_not_root (hs.filled c List.mem_cons_self) true, hline ▸ hs.keys_ok⟩
  · rw [node_lower, if_neg (hne _ c.page_mem_pages), if_pos rfl]
    rfl
  · rw [node_lower, if_neg (hne x (c.pagesBelow_subset hx)), if_neg]
    rintro rfl
    exact Shape.page_not_mem_pagesBelow hnodup.2 hx

theorem settles_lower (v : View) (p : PageId) (c : Shape h) :
    v.Settles (lower v p c) (Shape.inner p c []).pages c.pages := by
  have hpages : (Shape.inner p c []).pages = p :: c.pages := by
    rw [Shape.pages_inner, List.flatMap_nil, List.append_nil]
  rw [hpages]
  refine View.settles_of_pageCount_eq rfl (List.subset_cons_self _ _) (fun x _ hx => ?_)
    fun x hx hnot => ?_
  · obtain ⟨hxp, hxpages⟩ := not_or.1 (mt List.mem_cons.2 hx)
    have hxc : x ≠ c.page := fun he => hxpages (he ▸ c.page_mem_pages)
    rw [node_lower, if_neg hxp, if_neg hxc]
  · rw [node_lower, if_pos ((List.mem_cons.1 hx).resolve_right hnot)]

end Lower

/-- A root that has lost a child is written, or gives way to the only child that is left. -/
theorem yields_lowerRoot {s : Shape (h + 1)} (hs : v.Pending .top s)
    (hsize : 1 ≤ s.size ∧ s.size ≤ Shape.most (h + 1)) :
    Yields (lowerRoot (s.internal v.keyType none)) v (fun _ v' => v.Mended v' s)
      (fun _ => False) := by
  have hlen : (s.internal v.keyType none).size = s.size := List.length_map ..
  rw [lowerRoot, hlen]
  split_ifs with hone
  · refine (turns_putInternal (hs.encodable hsize.2 none) hs.hasPage).yields
      ⟨View.keeps_put _ _, h + 1, _, hs.put ⟨hone, hsize.2⟩, .inl ⟨rfl, rfl⟩, rfl,
        View.settles_put_plug v .top s rfl⟩
  · obtain ⟨p, c, rest, rfl⟩ : ∃ p c rest, s = Shape.inner p c rest := ⟨_, _, _, rfl⟩
    rw [Shape.size_inner] at hone
    obtain rfl : rest = [] := List.eq_nil_of_length_eq_zero (by omega)
    have hc : c.Stored v.node v.keyType (some p) := hs.below c List.mem_cons_self
    have hrelink := turns_relink hc.1 none
    rw [Shape.withParent_node] at hrelink
    refine yields_of_valid fun hv => ?_
    have hpage := (View.keeps_put v (c.node v.keyType none)).hasPage (hv.hasPage hc.1)
    have hget : Positions.get ((Shape.inner p c []).internal v.keyType none).children 0 =
        .ok c.page := rfl
    simp only [hget, Action.ofChecked_ok, pure_bind]
    refine hrelink.bind_yields ((turns_moveRoot hpage.1
      (Nat.lt_of_le_of_lt (Nat.zero_le _) hpage.2)).bind_yields ?_)
    refine (turns_releasePage (((View.keeps_put _ _).trans
      (View.keeps_setRoot _ _)).hasPage hs.hasPage)).yields ⟨keeps_lower v p c, h, c,
        shaped_lower hs, .inr ⟨rfl, List.mem_cons_self, ?_⟩, ?_, settles_lower v p c⟩
    · exact (node_lower v p c _).trans (if_pos hs.root_eq)
    · rw [← Shape.filterMap_line, ← Shape.filterMap_line]
      simp

/-- What is left to do is done if any such parent can be mended. -/
theorem yields_mendHanded {v' : View} {above : Route H (h + 1)} {parent : Internal}
    {old : Shape (h + 1)} {steps : Nat}
    (hmend : ∀ {s : Shape (h + 1)}, v'.Pending above s →
      Shape.least above.isTop (h + 1) ≤ s.size + 1 ∧ s.size ≤ Shape.most (h + 1) →
      Yields (mendInternal steps (s.internal v'.keyType above.parent)) v'
        (fun _ v'' => v'.Mended v'' (above.plug s)) (fun _ => False))
    (hv : v.Handed v' above parent old) :
    Yields (mendInternal steps parent) v' (fun _ v'' => v.Mended v'' (above.plug old))
      (fun _ => False) := by
  obtain ⟨hkeep, hroot, s, rfl, hs, hsize, hpage, hkids, hentries, hsettles⟩ := hv
  rw [← hkeep.keyType]
  refine (hmend hs hsize).mono ?_ fun _ h => h
  rintro _ v'' ⟨hkeep', H', s', hshaped, hlowers, hentries', hsettles'⟩
  exact ⟨hkeep.trans hkeep', H', s', hshaped,
    hlowers.of_same hroot (Route.kidPages_plug_subset hpage hkids), hentries'.trans hentries,
    hsettles.trans hsettles' hkeep⟩

/-- An internal node with too few children is mended with a sibling, and the parent after it if it
has lost a child. -/
theorem yields_mendSmall {steps : Nat} {page : PageId} {left : List (Shape (h + 1) × Field)}
    {s : Shape (h + 1)} {right : List (Field × Shape (h + 1))} {above : Route H (h + 2)}
    (hs : v.Pending (.down page left right above) s) (hv : v.Valid)
    (hsize : s.size < minChildren ∧ minChildren ≤ s.size + 1)
    (hnext : ∀ parent v', v.Handed v' above parent (Route.fork page left s right) →
      Yields (mendInternal steps parent) v'
        (fun _ v'' => v.Mended v'' (above.plug (Route.fork page left s right))) (fun _ => False)) :
    Yields (mendInternal (steps + 1) (s.internal v.keyType (some page))) v
      (fun _ v' => v.Mended v' (Route.plug (.down page left right above) s))
      (fun _ => False) := by
  have hgrown : Shape.least false (h + 1) ≤ s.size + 1 ∧ s.size + 1 ≤ Shape.most (h + 1) :=
    ⟨hsize.2, Nat.le_trans hsize.1 (Nat.le_of_ble_eq_true rfl)⟩
  obtain ⟨remedy, hchoice, hremedy⟩ := exists_remedy
    (fun c : Shape (h + 1) => c.internal v.keyType (some page)) (fun c => c.size_internal) hs hv
    hsize.1
  have hchoice : Remedy.choose Internal.size minChildren maxChildren _ _ _ = _ := hchoice
  show Yields (if minChildren ≤ (s.internal v.keyType (some page)).size then _ else _) v _ _
  rw [s.size_internal, if_neg (Nat.not_le.2 hsize.1)]
  refine yields_family _ hs (fun c hc => answers_fetchInternal hc.1) ?_
  simp only [hchoice]
  cases hremedy with
  | mergeRight hb hsize => exact (yields_mergeInternalPages hb hsize).bind hnext
  | mergeLeft ha hsize => exact (yields_mergeInternalPages ha hsize).bind hnext
  | borrowRight hb hsize => exact yields_takeFromRightInternal hb hgrown hsize
  | borrowLeft ha hsize => exact yields_takeFromLeftInternal ha hsize hgrown

/-- An internal node that has lost at most a child is written, or mended and its parent after it. -/
theorem yields_mendInternal {steps : Nat} {r : Route H (h + 1)} {s : Shape (h + 1)}
    (hs : v.Pending r s) (hsteps : r.length < steps)
    (hsize : Shape.least r.isTop (h + 1) ≤ s.size + 1 ∧ s.size ≤ Shape.most (h + 1)) :
    Yields (mendInternal steps (s.internal v.keyType r.parent)) v
      (fun _ v' => v.Mended v' (r.plug s)) (fun _ => False) := by
  refine yields_of_valid fun hv => ?_
  -- one step for each node on the way up
  induction steps generalizing v h with
  | zero => exact absurd hsteps (Nat.not_lt_zero _)
  | succ steps ih =>
    cases r with
    | top => exact yields_lowerRoot hs ⟨Nat.le_of_succ_le_succ hsize.1, hsize.2⟩
    | down page left right above =>
      by_cases hfits : minChildren ≤ s.size
      · show Yields (if minChildren ≤ (s.internal v.keyType (some page)).size then _ else _) v _ _
        rw [s.size_internal, if_pos hfits]
        exact (turns_putInternal (hs.encodable hsize.2 _) hs.hasPage).yields
          ⟨View.keeps_put _ _, H, _, hs.put ⟨hfits, hsize.2⟩, .inl ⟨rfl, rfl⟩, rfl,
            View.settles_put_plug v _ s rfl⟩
      · refine yields_mendSmall hs hv ⟨Nat.lt_of_not_le hfits, hsize.1⟩ fun parent v' hhanded => ?_
        exact yields_mendHanded (fun hs' hsize' => yields_of_valid fun hv' =>
          ih hs' (Nat.lt_of_succ_lt_succ hsteps) hsize' hv') hhanded

/-- A leaf with too few entries is mended, and its parent after it. -/
theorem yields_mendLeaf {steps : Nat} {page : PageId} {left : List (Shape 0 × Field)} {s : Shape 0}
    {right : List (Field × Shape 0)} {above : Route H 1}
    (hs : v.Pending (.down page left right above) s) (hsteps : above.length < steps)
    (hsize : s.size < minLeafKeys ∧ minLeafKeys ≤ s.size + 1) :
    Yields (mendLeaf steps page (s.leaf v.keyType (some page))) v
      (fun _ v' => v.Mended v' (Route.plug (.down page left right above) s))
      (fun _ => False) := by
  refine yields_of_valid fun hv => ?_
  have hgrown : Shape.least false 0 ≤ s.size + 1 ∧ s.size + 1 ≤ Shape.most 0 :=
    ⟨hsize.2, Nat.le_trans hsize.1 (Nat.le_of_ble_eq_true rfl)⟩
  have hnext : ∀ parent v',
      v.Handed v' above parent (Route.fork page left s right) →
        Yields (mendInternal steps parent) v' (fun _ v'' => v.Mended v''
          (above.plug (Route.fork page left s right))) (fun _ => False) :=
    fun parent v' => yields_mendHanded fun hs' => yields_mendInternal hs' hsteps
  obtain ⟨remedy, hchoice, hremedy⟩ := exists_remedy
    (fun c : Shape 0 => c.leaf v.keyType (some page)) (fun c => c.size_leaf) hs hv hsize.1
  have hchoice : Remedy.choose Leaf.size minLeafKeys maxLeafKeys _ _ _ = _ := hchoice
  refine yields_family (fun c : Shape 0 => c.leaf v.keyType (some page)) hs
    (fun c hc => answers_fetchLeaf hc.1) ?_
  simp only [hchoice]
  cases hremedy with
  | mergeRight hb hsize => exact (yields_mergeLeafPages hb hsize).bind hnext
  | mergeLeft ha hsize => exact (yields_mergeLeafPages ha hsize).bind hnext
  | borrowRight hb hsize => exact yields_takeFromRightLeaf hb hgrown hsize
  | borrowLeft ha hsize => exact yields_takeFromLeftLeaf ha hsize hgrown

/-! ### Removing a key -/

/-- A leaf with one entry less is written, or mended if it is too small. -/
theorem yields_writeShrunk {r : Route H 0} {w s : Shape 0} (hw : v.Shaped (r.plug w))
    (hs : v.Pending r s) (hsize : s.size + 1 = w.size) :
    Yields (match (s.leaf v.keyType r.parent).parent with
      | none => putLeaf (s.leaf v.keyType r.parent)
      | some p =>
        if minLeafKeys ≤ (s.leaf v.keyType r.parent).size then
          putLeaf (s.leaf v.keyType r.parent)
        else do
          mendLeaf (← get).stepLimit p (s.leaf v.keyType r.parent)) v
      (fun _ v' => v.Mended v' (r.plug s)) (fun _ => False) := by
  refine yields_of_valid fun hv => ?_
  obtain ⟨⟨hleast, hmost⟩, -⟩ := (Route.occupied_plug.1 hw.occupied).2
  have hfits : s.size ≤ Shape.most 0 := by omega
  have hput : Shape.least r.isTop 0 ≤ s.size → Yields (putLeaf (s.leaf v.keyType r.parent)) v
      (fun _ v' => v.Mended v' (r.plug s)) (fun _ => False) := fun h =>
    (turns_putLeaf (hs.encodable hfits r.parent) hs.hasPage).yields
      ⟨View.keeps_put _ _, H, _, hs.put ⟨h, hfits⟩, .inl ⟨rfl, rfl⟩, rfl,
        View.settles_put_plug v r s rfl⟩
  cases r with
  | top => exact hput (Nat.zero_le _)
  | down page left right above =>
    show Yields (if minLeafKeys ≤ (s.leaf v.keyType (some page)).size then
      putLeaf (s.leaf v.keyType (some page)) else _) v _ _
    rw [s.size_leaf]
    split_ifs with henough
    · exact hput henough
    · refine yields_get_bind fun t ht => ?_
      have hlt := hw.length_lt hv
      rw [ht.stepLimit_eq]
      have hlow : Shape.least false 0 ≤ w.size := hleast
      refine yields_mendLeaf hs ?_ ⟨Nat.lt_of_not_le henough, by rw [hsize]; exact hlow⟩
      simp only [Route.length] at hlt
      omega

/-- A key that is not there is refused. -/
theorem refuses_removeKey {s : Shape H} (hs : v.Shaped s) (hv : v.Valid) {key : Field}
    (hkey : key ∉ s.entries.map Prod.fst) :
    Answers (removeKey key) v (.error (.error (.notFound key))) := by
  obtain ⟨way, w, hplug, hway, hleaf⟩ := answers_findLeaf hs hv key
  subst hplug
  have hindex : Keys.indexOf? key (w.leaf v.keyType way.parent).keys = none :=
    (hway.indexOf?_eq_none_iff hs.ascending).2 hkey
  refine hleaf.bind ?_
  simp only [hindex]
  exact answers_fail _

/-- Distinct entries lead to distinct records. -/
theorem eq_of_record_eq {s : Shape H} (hs : v.HasShape s) {e e' : Field × RecordId}
    (he : e ∈ s.entries) (he' : e' ∈ s.entries) (hid : e.2 = e'.2) :
    e = e' := by
  obtain ⟨r, hr, hk⟩ := hs.resolved e he
  obtain ⟨r', hr', hk'⟩ := hs.resolved e' he'
  rw [hid, hr'] at hr
  exact Prod.ext (by rw [← hk, ← hk', Option.some.inj hr]) hid

/-- Every entry leads to its record if the record is erased of the only one that is gone. -/
theorem hasShape_removed {s : Shape H} (hs : v.HasShape s) {key : Field} {id : RecordId}
    (he : (key, id) ∈ s.entries) {v' : View} {H' : Nat} {s' : Shape H'}
    (hkeep : (v.setRecord id none).Keeps v') (hs' : v'.Shaped s')
    (hsub : ∀ e ∈ s'.entries, e ∈ s.entries ∧ e.1 ≠ key) : v'.HasShape s' := by
  refine hs'.hasShape fun e he' => ?_
  obtain ⟨hold, hne⟩ := hsub e he'
  obtain ⟨r, hr, hk⟩ := hs.resolved e hold
  refine ⟨r, ?_, hk⟩
  rw [hkeep.record]
  refine (Function.update_of_ne (fun hid => ?_) ..).trans hr
  exact hne (congrArg Prod.fst (eq_of_record_eq hs hold he hid))

/-- Taking the entry of a key out of a leaf takes no other entry out. -/
theorem mem_entries_removed {r : Route H 0} {p : PageId} {xs ys : List (Field × RecordId)}
    {key : Field} {id : RecordId}
    (ha : Shape.Ascending (r.plug (Shape.twig p (xs ++ (key, id) :: ys))).line)
    (e : Field × RecordId) : e ∈ (r.plug (Shape.twig p (xs ++ ys))).entries ↔
      e ∈ (r.plug (Shape.twig p (xs ++ (key, id) :: ys))).entries ∧ e.1 ≠ key := by
  have hperm : (r.plug (Shape.twig p (xs ++ (key, id) :: ys))).entries.Perm
      ((key, id) :: (r.plug (Shape.twig p (xs ++ ys))).entries) := by
    rw [Route.entries_plug, Route.entries_plug]
    simp only [Shape.entries_twig, List.append_assoc, List.cons_append]
    rw [← List.append_assoc, ← List.append_assoc _ xs]
    exact List.perm_middle
  have hn : ((r.plug (Shape.twig p (xs ++ (key, id) :: ys))).entries.map Prod.fst).Nodup :=
    ha.entries.imp ne_of_lt
  rw [(hperm.map Prod.fst).nodup_iff, List.map_cons, List.nodup_cons] at hn
  rw [hperm.mem_iff, List.mem_cons]
  constructor
  · intro he
    exact ⟨.inr he, fun heq => hn.1 (List.mem_map.2 ⟨e, he, heq⟩)⟩
  · rintro ⟨rfl | he, hne⟩
    · exact absurd rfl hne
    · exact he

theorem valid_erased (hv : v.Valid) (id : RecordId) : (v.setRecord id none).Valid := by
  have hold : ∀ {id' r}, (v.setRecord id none).record id' = some r → v.record id' = some r := by
    intro id' r h
    by_cases hid : id' = id
    · rw [hid, show (v.setRecord id none).record id = none from Function.update_self ..] at h
      cases h
    · exact (Function.update_of_ne hid ..).symm.trans h
  exact ⟨hv.page_eq, hv.hasPage, hv.encodable, fun h => hv.record_lt (hold h),
    fun h => hv.exists_recordSize (hold h)⟩

/-- The leaf that a key leads to gives its entry up, in memory, when its record is erased. -/
theorem exists_shrunk {way : Route H 0} {w : Shape 0} (hs : v.Shaped (way.plug w)) {key : Field}
    {id : RecordId} (hway : way.Follows (fun n => Keys.firstLarger key n.keys) v.keyType w)
    (he : (key, id) ∈ (way.plug w).entries) (hv : v.Valid) :
    ∃ (i : Nat) (s : Shape 0), Keys.indexOf? key (w.leaf v.keyType way.parent).keys = some i ∧
      (w.leaf v.keyType way.parent).removeEntry i = .ok (id, s.leaf v.keyType way.parent) ∧
      (v.setRecord id none).Pending way s ∧ s.page = w.page ∧ s.size + 1 = w.size ∧
      ∀ e, e ∈ (way.plug s).entries ↔ e ∈ (way.plug w).entries ∧ e.1 ≠ key := by
  have hascending := hs.ascending
  obtain ⟨xs, ys, hw, hindex⟩ := hway.exists_indexOf? hascending he way.parent
  have hsub : (xs ++ ys).Sublist (xs ++ (key, id) :: ys) :=
    List.Sublist.append_left (List.sublist_cons_self _ _) _
  refine ⟨xs.length, Shape.twig w.page (xs ++ ys), hindex, ?_, ?_, rfl, ?_, ?_⟩
  · conv => lhs; rw [hw]
    exact Shape.removeEntry_twig rfl
  · refine (hs.setRecord id none).pending (valid_erased hv id) rfl ?_ fun e he => .inl ?_
    · rw [Route.line_plug, hw] at hascending
      exact hascending.sublist (((hsub.map _).append_left _).append_right _)
    · rw [hw]
      exact hsub.subset he
  · conv => rhs; rw [hw]
    simp only [Shape.size_twig, List.length_append, List.length_cons]
    rfl
  · rw [hw] at hascending
    conv => enter [e]; rhs; rw [hw]
    exact mem_entries_removed hascending

/-- A key that is there is taken out with its record, and all other entries stay. -/
theorem yields_removeKey {s : Shape H} (hs : v.HasShape s) {key : Field} {id : RecordId}
    (he : (key, id) ∈ s.entries) :
    Yields (removeKey key) v
      (fun _ v' => (v.setRecord id none).Keeps v' ∧ ∃ (H' : Nat) (s' : Shape H'), v'.HasShape s' ∧
        v.Lowers v' s H' ∧ (∀ e, e ∈ s'.entries ↔ e ∈ s.entries ∧ e.1 ≠ key) ∧
          v.Settles v' s.pages s'.pages ∧ v.Retires v')
      (fun _ => False) := by
  refine yields_of_valid fun hv => ?_
  have hshaped := hs.shaped hv
  obtain ⟨way, w, hplug, hway, hleaf⟩ := answers_findLeaf hshaped hv key
  subst hplug
  obtain ⟨r, hr, hk⟩ := hs.resolved _ he
  obtain ⟨i, s, hindex, hremove, hpending, hpage, hsize, hmem⟩ := exists_shrunk hshaped hway he hv
  refine hleaf.turns.bind_yields ?_
  simp only [hindex, hremove, Action.ofChecked_ok, pure_bind]
  refine (turns_eraseRecord (hv.record_lt hr)).bind_yields ?_
  refine (yields_writeShrunk (hshaped.setRecord id none) hpending hsize).mono ?_ fun _ h => h
  rintro _ v' ⟨hkeep, H', s', hs', hlowers, hentries, hsettles⟩
  have hiff : ∀ e, e ∈ s'.entries ↔ e ∈ (way.plug w).entries ∧ e.1 ≠ key := by
    intro e
    rw [hentries, hmem]
  -- the leaf is where it was
  have hsettles : v.Settles v' (way.plug w).pages s'.pages := by
    refine hsettles.of_setRecord.congr (fun p => ?_) fun _ => Iff.rfl
    rw [(Route.pages_plug way w).mem_iff, (Route.pages_plug way _).mem_iff, Shape.pages_eq,
      Shape.pages_eq, hpage]
    rfl
  have hused : v.record id ≠ none := fun hnone => by cases hr.symm.trans hnone
  have hkids : s.kidPages ⊆ w.kidPages := List.Subset.refl _
  exact ⟨hkeep, H', s', hasShape_removed hs he hkeep hs' fun e he' => (hiff e).1 he',
    hlowers.of_same rfl (Route.kidPages_plug_subset hpage hkids), hiff, hsettles,
    View.retires_setRecord hused hkeep (hsettles.leavesVacant fun p hp =>
      hshaped.stored.exists_node hp)⟩

end Tree
end RecordIndex
