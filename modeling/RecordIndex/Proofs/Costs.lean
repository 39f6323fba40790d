import RecordIndex.Proofs.Writes
import RecordIndex.Tree.Change

/-!
# How many slots an operation writes

On any tree, damaged or not, what an operation does is to read slots and to write a bounded number
of them, whether it succeeds or fails.

* `Tree.Costs x n Q E`: the action writes at most `n` slots; its answer satisfies `Q`, or it fails
  as `E` allows.
* `Tree.costs_attachSplit` and `Tree.costs_mendInternal`: the walks upwards write a fixed number of
  slots on each level.
* `Tree.Tries x n`: the action writes at most `n` slots, and refuses a request only before the first.
-/

namespace RecordIndex

open RecordIndex.Action

/-! ### Failures that are no refusals -/

theorem Failure.midway_invariantViolation (cause : Violation) :
    Failure.Midway (.error (.invariantViolation cause)) := ⟨rfl, by simp⟩

theorem Failure.midway_corrupted (cause : Corruption) :
    Failure.Midway (.error (.corrupted cause)) := ⟨rfl, by simp⟩

theorem Node.midway_of_ofPage {p : Page} {e : Error} (h : ofPage p = .error e) :
    Failure.Midway (.error e) := by
  obtain ⟨cause, rfl, -⟩ := Page.checks_decoder.corrupted_of_run h
  exact Failure.midway_corrupted cause

theorem Page.midway_of_header {p : Page} {e : Error} (h : p.header = .error e) :
    Failure.Midway (.error e) := by
  rw [header, NodeHeader.decode, if_neg (by rw [p.length_eq]; decide)] at h
  obtain ⟨cause, rfl, -⟩ := checks_headerDecoder.corrupted_of_run h
  exact Failure.midway_corrupted cause

theorem Node.midway_of_toPage {n : Node} {e : Failure} (h : n.toPage = .error e) : e.Midway := by
  cases e with
  | fault f => trivial
  | error e =>
    by_cases hcounts : n.CountsAgree
    · rw [toPage_of_countsAgree hcounts, encodeNode] at h
      split at h
      · cases h
        exact Failure.midway_invariantViolation _
      · split at h
        · cases h
          exact ⟨rfl, by simp⟩
        · split at h
          · cases h
          · cases h
    · obtain ⟨cause, hcause⟩ := toPage_of_not_countsAgree hcounts
      rw [hcause] at h
      cases h
      exact Failure.midway_invariantViolation cause

theorem Internal.midway_of_indexOfChild {n : Internal} {child : PageId} {e : Error}
    (h : n.indexOfChild child = .error e) : Failure.Midway (.error e) := by
  unfold indexOfChild at h
  split at h
  · cases h
  · cases h
    exact Failure.midway_invariantViolation _

theorem Internal.midway_of_separatorIndex {n : Internal} {left right : PageId} {e : Error}
    (h : n.separatorIndex left right = .error e) : Failure.Midway (.error e) := by
  unfold separatorIndex at h
  cases hl : n.indexOfChild left with
  | error e' =>
    rw [hl] at h
    cases h
    exact midway_of_indexOfChild hl
  | ok i =>
    cases hr : n.indexOfChild right with
    | error e' =>
      rw [hl, hr] at h
      cases h
      exact midway_of_indexOfChild hr
    | ok j =>
      rw [hl, hr] at h
      change (if j = i + 1 then _ else _) = _ at h
      split_ifs at h
      · cases h
      · cases h
        exact Failure.midway_invariantViolation _

theorem Internal.midway_of_split {n : Internal} {p : PageId} {e : Failure}
    (h : n.split p = .error e) : e.Midway := by
  cases e with
  | fault f => trivial
  | error e =>
    unfold split at h
    split at h
    · split at h
      · cases h
        exact Failure.midway_invariantViolation _
      · cases h
      · cases h
    · cases h

theorem Leaf.midway_of_shiftRight {left right : Leaf} {e : Error}
    (h : left.shiftRight right = .error e) : Failure.Midway (.error e) := by
  unfold shiftRight at h
  split at h
  · cases h
  · cases h
    exact Failure.midway_invariantViolation _

theorem Internal.midway_of_shiftRight {left right : Internal} {separator : Field} {e : Error}
    (h : left.shiftRight separator right = .error e) : Failure.Midway (.error e) := by
  unfold shiftRight at h
  split at h
  · cases h
  · cases h
    exact Failure.midway_invariantViolation _

/-! ### What becomes of pages and children -/

/-- Where one step after the other answers, each has answered. -/
theorem exists_ok_of_bind {ε α β : Type} {x : Except ε α} {f : α → Except ε β} {b : β}
    (h : (x >>= f) = .ok b) : ∃ a, x = .ok a ∧ f a = .ok b := by
  cases x with
  | error e => cases h
  | ok a => exact ⟨a, rfl, h⟩

namespace Leaf

variable {l left right a b : Leaf} {key : Field} {p : PageId}

theorem page_of_split (h : l.split p = .ok (a, key, b)) : a.page = l.page ∧ b.page = p := by
  obtain ⟨_, -, h⟩ := exists_ok_of_bind h
  obtain ⟨_, -, h⟩ := exists_ok_of_bind h
  obtain ⟨_, -, h⟩ := exists_ok_of_bind h
  cases h
  exact ⟨rfl, rfl⟩

theorem page_of_shiftLeft (h : left.shiftLeft right = .ok (a, b, key)) :
    a.page = left.page ∧ b.page = right.page := by
  obtain ⟨_, -, h⟩ := exists_ok_of_bind h
  obtain ⟨_, -, h⟩ := exists_ok_of_bind h
  obtain ⟨_, -, h⟩ := exists_ok_of_bind h
  cases h
  exact ⟨rfl, rfl⟩

theorem page_of_shiftRight (h : left.shiftRight right = .ok (a, b, key)) :
    a.page = left.page ∧ b.page = right.page := by
  unfold shiftRight at h
  split at h
  · cases h
    exact ⟨rfl, rfl⟩
  · cases h

end Leaf

namespace Internal

variable {n m left right a b : Internal} {i : Nat} {key separator : Field} {p child : PageId}

/-- The children are dealt out to the old page and a new one. -/
theorem of_split (h : n.split p = .ok (a, key, b)) : a.page = n.page ∧ b.page = p ∧
    a.children ++ b.children = n.children ∧ a.children.length = splitPosition := by
  unfold split at h
  split at h
  next leftKeys rightKeys children hkeys =>
    split at h
    next => cases h
    next promoted leftChildren rightChildren hlast =>
      have hchildren := Positions.append_of_splitAt ‹_›
      have hlength := Positions.length_of_splitAt ‹_›
      cases h
      exact ⟨rfl, rfl, hchildren, hlength⟩
    next => cases h
  next => cases h

theorem of_insertChild (h : n.insertChild i key p = .ok m) :
    m.page = n.page ∧ m.children.length = n.children.length + 1 := by
  obtain ⟨keys, -, h⟩ := exists_ok_of_bind h
  obtain ⟨children, hchildren, h⟩ := exists_ok_of_bind h
  cases h
  exact ⟨rfl, Positions.length_of_insertAt hchildren⟩

theorem of_removeChild (h : n.removeChild i = .ok (key, m)) :
    m.page = n.page ∧ m.children.length + 1 = n.children.length := by
  obtain ⟨keys, -, h⟩ := exists_ok_of_bind h
  obtain ⟨children, hchildren, h⟩ := exists_ok_of_bind h
  cases h
  exact ⟨rfl, Positions.length_of_removeAt hchildren⟩

theorem page_of_setKey (h : n.setKey i key = .ok m) : m.page = n.page := by
  obtain ⟨keys, -, h⟩ := exists_ok_of_bind h
  cases h
  rfl

/-- A child moves from one node to the other. -/
theorem of_shiftLeft (h : left.shiftLeft separator right = .ok (child, a, b, key)) :
    a.page = left.page ∧ b.page = right.page ∧ child ∈ right.children := by
  obtain ⟨keys, -, h⟩ := exists_ok_of_bind h
  obtain ⟨children, hchildren, h⟩ := exists_ok_of_bind h
  cases h
  exact ⟨rfl, rfl, Positions.mem_of_removeAt hchildren⟩

theorem of_shiftRight (h : left.shiftRight separator right = .ok (child, a, b, key)) :
    a.page = left.page ∧ b.page = right.page ∧ child ∈ left.children := by
  unfold shiftRight at h
  split at h
  next hlast =>
    cases h
    exact ⟨rfl, rfl, List.mem_of_getLast? hlast⟩
  next => cases h

end Internal

namespace Tree

variable {α β : Type} {z : Zone} {m n : Nat} {P Q : α → Prop} {R : β → Prop}
  {E E' : Failure → Prop}

/-- The action reads slots and writes at most `n` of them, all in the zone `z`. Its answer satisfies
`Q`, or it fails as `E` allows. -/
def Costs (z : Zone) (x : TreeAction α) (n : Nat) (Q : α → Prop) (E : Failure → Prop) : Prop :=
  ∀ t : Tree, t.Opened → z.fresh ≤ t.pageCount.toNat → ∃ k ≤ n,
    WritesIn z k t (finalState (x t)) ∧
      (∀ a, answer (x t) = .ok a → Q a) ∧ ∀ e, answer (x t) = .error e → E e

section Logic

theorem costs_pure {a : α} (h : Q a) : Costs z (pure a) 0 Q E := fun t _ _ =>
  ⟨0, Nat.le_refl 0, .refl t, fun _ ha => Except.ok.inj ha ▸ h, nofun⟩

theorem costs_throw {e : Failure} (h : E e) : Costs z (throw e) 0 Q E := fun t _ _ =>
  ⟨0, Nat.le_refl 0, .refl t, nofun, fun _ he => Except.error.inj he ▸ h⟩

theorem costs_fail {e : Error} (h : E (.error e)) : Costs z (fail e) 0 Q E := costs_throw h

theorem costs_fault {f : Fault} (h : E (.fault f)) : Costs z (fault f) 0 Q E := costs_throw h

theorem costs_ofExcept {x : Except Error α} (hok : ∀ a, x = .ok a → Q a)
    (herror : ∀ e, x = .error e → E (.error e)) : Costs z (ofExcept x) 0 Q E := by
  cases x with
  | ok a => exact costs_pure (hok a rfl)
  | error e => exact costs_fail (herror e rfl)

theorem costs_ofResult {x : Except Failure α} (hok : ∀ a, x = .ok a → Q a)
    (herror : ∀ e, x = .error e → E e) : Costs z (ofResult x) 0 Q E := by
  cases x with
  | ok a => exact costs_pure (hok a rfl)
  | error e => exact costs_throw (herror e rfl)

theorem costs_ofChecked {x : Except Fault α} (hok : ∀ a, x = .ok a → Q a)
    (herror : ∀ f, E (.fault f)) : Costs z (ofChecked x) 0 Q E := by
  cases x with
  | ok a => exact costs_pure (hok a rfl)
  | error f => exact costs_fault (herror f)

theorem Costs.mono {x : TreeAction α} (h : Costs z x m Q E) (hn : m ≤ n) (hQ : ∀ a, Q a → P a)
    (hE : ∀ e, E e → E' e) : Costs z x n P E' := by
  intro t ht hfresh
  obtain ⟨k, hk, hw, ha, he⟩ := h t ht hfresh
  exact ⟨k, hk.trans hn, hw, fun a h => hQ a (ha a h), fun e h => hE e (he e h)⟩

theorem Costs.of_le {x : TreeAction α} (h : Costs z x m Q E) (hn : m ≤ n) : Costs z x n Q E :=
  h.mono hn (fun _ h => h) fun _ h => h

theorem Costs.bind {x : TreeAction α} {f : α → TreeAction β} (hx : Costs z x m Q E)
    (hf : ∀ a, Q a → Costs z (f a) n R E) : Costs z (x >>= f) (m + n) R E := by
  intro t ht hfresh
  obtain ⟨k, hk, hw, ha, he⟩ := hx t ht hfresh
  rw [run_bind]
  cases h : x t with
  | ok a t' =>
    rw [h] at hw ha
    obtain ⟨k', hk', hw', hb, he'⟩ := hf a (ha a rfl) t' (hw.wrote ht).1
      (hfresh.trans (hw.pageCount_le ht))
    exact ⟨k + k', Nat.add_le_add hk hk', hw.trans hw', hb, he'⟩
  | error e t' =>
    rw [h] at hw he
    exact ⟨k, Nat.le_add_right_of_le hk, hw, nofun, fun e' he' => Except.error.inj he' ▸ he e rfl⟩

/-- What comes first only reads. -/
theorem Costs.read {x : TreeAction α} {f : α → TreeAction β} (hx : Costs z x 0 Q E)
    (hf : ∀ a, Q a → Costs z (f a) n R E) : Costs z (x >>= f) n R E :=
  (hx.bind hf).of_le (Nat.le_of_eq (Nat.zero_add n))

theorem Costs.map {x : TreeAction α} (hx : Costs z x n Q E) {f : α → β} (hf : ∀ a, Q a → R (f a)) :
    Costs z (f <$> x) n R E := by
  rw [map_eq_pure_bind]
  exact hx.bind (n := 0) fun a ha => costs_pure (hf a ha)

theorem costs_get_bind {f : Tree → TreeAction β} (h : ∀ t : Tree, t.Opened → Costs z (f t) n R E) :
    Costs z (get >>= f) n R E := fun t ht => h t ht t ht

/-- One action after the other. -/
theorem costs_forM {f : β → TreeAction Unit} (bs : List β)
    (h : ∀ b ∈ bs, Costs z (f b) n (fun _ => True) E) :
    Costs z (bs.forM f) (bs.length * n) (fun _ => True) E := by
  rw [List.forM_eq_forM]
  induction bs with
  | nil => exact (costs_pure trivial).of_le (Nat.zero_le _)
  | cons b bs ih =>
    rw [List.forM_cons, List.length_cons, Nat.add_mul, Nat.one_mul, Nat.add_comm]
    exact (h b List.mem_cons_self).bind fun _ _ => ih fun b' hb' => h b' (List.mem_cons_of_mem b hb')

theorem costs_mapM {f : β → TreeAction α} (b? : Option β) (h : ∀ b, Costs z (f b) n Q E) :
    Costs z (b?.mapM f) n (fun a? => ∀ a, a? = some a → Q a) E := by
  cases b? with
  | none => exact (costs_pure nofun).of_le (Nat.zero_le n)
  | some b => exact (h b).map fun a ha a' ha' => Option.some.inj ha' ▸ ha

/-- An action that writes one slot or fails. -/
theorem costs_of_whole {x : TreeAction α}
    (h : ∀ t, t.Opened → Whole x t (fun _ t' => t.Wrote t') E)
    (hw : ∀ {t a t'}, x t = .ok a t' → SlotWriteIn z t t') : Costs z x 1 (fun _ => True) E := by
  intro t ht _
  have hwhole := h t ht
  cases hx : x t with
  | ok a t' => exact ⟨1, Nat.le_refl 1, (hw hx).writes, fun _ _ => trivial, nofun⟩
  | error e t' =>
    obtain ⟨rfl, he⟩ := hwhole.of_error hx
    exact ⟨0, Nat.zero_le 1, .refl t', nofun, fun e' he' => Except.error.inj he' ▸ he⟩

end Logic

/-! ### Nodes -/

section Nodes

theorem whole_fetchPage {t : Tree} (ht : t.Opened) (p : PageId) :
    Whole (onIndex (PageFile.fetch p)) t
      (fun page t' => PageFile.page? t.store.index p = some page ∧ t' = t.addReads 1 0)
      Failure.Midway := by
  refine (whole_onIndex (PageFile.whole_fetch ht.layout_eq p)).mono ?_ fun _ h => h
  rintro page t' ⟨f, ⟨hpage, rfl⟩, rfl⟩
  exact ⟨hpage, addReads_index t 1⟩

theorem costs_fetchPage (p : PageId) :
    Costs z (onIndex (PageFile.fetch p)) 0 (fun _ => True) Failure.Midway := by
  intro t ht _
  cases hx : onIndex (PageFile.fetch p) t with
  | ok page t' =>
    obtain ⟨-, rfl⟩ := (whole_fetchPage ht p).of_ok hx
    exact ⟨0, Nat.le_refl 0, (WritesIn.refl t).reads 1 0, fun _ _ => trivial, nofun⟩
  | error e t' =>
    obtain ⟨rfl, he⟩ := (whole_fetchPage ht p).of_error hx
    exact ⟨0, Nat.le_refl 0, .refl t', nofun, fun e' he' => Except.error.inj he' ▸ he⟩

theorem costs_fetchNode (p : PageId) : Costs z (fetchNode p) 0 Node.Encodable Failure.Midway := by
  unfold fetchNode
  split_ifs
  · exact costs_fail (Failure.midway_invariantViolation _)
  · refine (costs_fetchPage p).read fun page _ => ?_
    refine (costs_ofExcept (fun _ => Node.encodable_of_ofPage) fun _ => Node.midway_of_ofPage).read
      fun n hn => ?_
    split_ifs
    · exact costs_pure hn
    · exact costs_fail (Failure.midway_corrupted _)

theorem costs_fetchLeaf (p : PageId) :
    Costs z (fetchLeaf p) 0 (fun _ => True) Failure.Midway := by
  refine (costs_fetchNode p).read fun n _ => costs_ofExcept (fun _ _ => trivial) fun e he => ?_
  cases n with
  | leaf l => cases he
  | internal n =>
    cases he
    exact ⟨rfl, by simp⟩

/-- A node that is read has no more children than a node may have. -/
theorem costs_fetchInternal (p : PageId) :
    Costs z (fetchInternal p) 0 (fun n => n.children.length ≤ maxChildren) Failure.Midway := by
  refine (costs_fetchNode p).read fun n hn => costs_ofExcept (fun m hm => ?_) fun e he => ?_
  · cases n with
    | leaf l => cases hm
    | internal n =>
      cases hm
      have := hn.length_offsets_le
      rwa [Node.offsets, List.length_map] at this
  · cases n with
    | internal n => cases he
    | leaf l =>
      cases he
      exact ⟨rfl, by simp⟩

theorem costs_putPage {n : Node} {page : Page} (hn : z.Holds n.page) (h : n.toPage = .ok page) :
    Costs z (onIndex (PageFile.put n.page page)) 1 (fun _ => True) Failure.Midway :=
  costs_of_whole (fun _ ht => whole_putPage ht _ _) fun hx => .putNode hn h hx

theorem costs_putLeaf {l : Leaf} (hl : z.Holds l.page) :
    Costs z (putLeaf l) 1 (fun _ => True) Failure.Midway :=
  (costs_ofResult (fun _ h => h) fun _ he => Node.midway_of_toPage (n := .leaf l) he).read
    fun _ h => costs_putPage (n := .leaf l) hl h

theorem costs_putInternal {n : Internal} (hn : z.Holds n.page) :
    Costs z (putInternal n) 1 (fun _ => True) Failure.Midway :=
  (costs_ofResult (fun _ h => h) fun _ he => Node.midway_of_toPage (n := .internal n) he).read
    fun _ h => costs_putPage (n := .internal n) hn h

/-- The page that is added has not been there before. -/
theorem costs_newPage : Costs z newPage 1 (fun p => z.fresh ≤ p.number.toNat) Failure.Midway := by
  intro t ht hfresh
  obtain ⟨k, hk, hw, -, he⟩ :=
    costs_of_whole (z := z) (fun _ ht => whole_newPage ht) .newPage t ht hfresh
  refine ⟨k, hk, hw, fun p hp => ?_, he⟩
  cases hx : newPage t with
  | error e t' =>
    rw [hx] at hp
    cases hp
  | ok q t' =>
    rw [hx] at hp
    cases hp
    obtain ⟨f, hf, -⟩ := onIndex_eq_ok_iff.1 hx
    obtain ⟨n, hn, rfl⟩ := map_eq_ok_iff.1 hf
    rw [SlotFile.eq_count_of_append hn]
    exact hfresh

theorem costs_releasePage {p : PageId} (hp : z.Holds p) :
    Costs z (releasePage p) 1 (fun _ => True) Failure.Midway :=
  costs_of_whole (fun _ ht => whole_releasePage ht p) (.releasePage hp)

theorem costs_moveRoot {p : PageId} (hp : z.root p) :
    Costs z (moveRoot p) 1 (fun _ => True) Failure.Midway :=
  costs_of_whole (fun _ ht => whole_moveRoot ht p) (.moveRoot hp)

/-- The header that is written has been read from the same page. -/
theorem costs_relink {p : PageId} (hp : z.Links p) (parent : Option PageId) :
    Costs z (relink p parent) 1 (fun _ => True) Failure.Midway := by
  intro t ht _
  unfold relink
  rw [run_bind]
  cases hx : onIndex (PageFile.fetch p) t with
  | error e t' =>
    obtain ⟨rfl, he⟩ := (whole_fetchPage ht p).of_error hx
    exact ⟨0, Nat.zero_le 1, .refl t', nofun, fun e' he' => Except.error.inj he' ▸ he⟩
  | ok page t' =>
    obtain ⟨hpage, rfl⟩ := (whole_fetchPage ht p).of_ok hx
    have hread : WritesIn z 0 t (t.addReads 1 0) := (WritesIn.refl t).reads 1 0
    dsimp only
    cases hheader : page.header with
    | error e =>
      exact ⟨0, Nat.zero_le 1, hread, nofun,
        fun e' he' => Except.error.inj he' ▸ Page.midway_of_header hheader⟩
    | ok header =>
      rw [ofExcept_ok, pure_bind]
      have hput := whole_putPage (hread.wrote ht).1 p (page.setHeader { header with parent })
      cases hx' : onIndex (PageFile.put p (page.setHeader { header with parent }))
        (t.addReads 1 0) with
      | ok a t' =>
        exact ⟨1, Nat.le_refl 1, hread.write (.relinkPage parent hp hpage hheader hx'),
          fun _ _ => trivial, nofun⟩
      | error e t' =>
        obtain ⟨rfl, he⟩ := hput.of_error hx'
        exact ⟨0, Nat.zero_le 1, hread, nofun, fun e' he' => Except.error.inj he' ▸ he⟩

theorem costs_relinkAll {ps : List PageId} (hps : ∀ p ∈ ps, z.Links p) (parent : Option PageId) :
    Costs z (relinkAll ps parent) ps.length (fun _ => True) Failure.Midway :=
  (costs_forM ps fun p hp => costs_relink (hps p hp) parent).of_le (Nat.le_of_eq (Nat.mul_one _))

end Nodes

/-! ### Descents -/

theorem costs_indexOfChild (n : Internal) (child : PageId) :
    Costs z (ofExcept (n.indexOfChild child)) 0 (fun _ => True) Failure.Midway :=
  costs_ofExcept (fun _ _ => trivial) fun _ => Internal.midway_of_indexOfChild

theorem costs_separatorIndex (n : Internal) (left right : PageId) :
    Costs z (ofExcept (n.separatorIndex left right)) 0 (fun _ => True) Failure.Midway :=
  costs_ofExcept (fun _ _ => trivial) fun _ => Internal.midway_of_separatorIndex

theorem costs_descend (next : Internal → Nat) (steps : Nat) (p : PageId) :
    Costs z (descend next steps p) 0 (fun _ => True) Failure.Midway := by
  induction steps generalizing p with
  | zero => exact costs_fault trivial
  | succ steps ih =>
    refine (costs_fetchNode p).read fun n _ => ?_
    cases n with
    | leaf l => exact costs_pure trivial
    | internal n =>
      refine (costs_ofChecked (fun _ _ => trivial) fun _ => trivial).read fun child (_ : True) => ?_
      exact (ih child).read fun _ _ => costs_pure trivial

theorem costs_findLeaf (key : Field) :
    Costs z (findLeaf key) 0 (fun _ => True) Failure.Midway := by
  refine Costs.map (Q := fun _ => True) ?_ fun _ _ => trivial
  exact costs_get_bind fun t _ => costs_descend _ _ _

/-- Finding a leaf only reads. -/
theorem findLeaf_cases {t : Tree} (ht : t.Opened) (key : Field) :
    (∃ leaf i j, findLeaf key t = .ok leaf (t.addReads i j)) ∨
      ∃ e i j, findLeaf key t = .error e (t.addReads i j) := by
  obtain ⟨k, hk, hw, -⟩ := costs_findLeaf (z := .all) key t ht (Nat.zero_le _)
  obtain rfl := Nat.le_zero.1 hk
  obtain ⟨i, j, hread⟩ := hw.exists_addReads
  cases hleaf : findLeaf key t with
  | ok leaf t' =>
    rw [hleaf] at hread
    exact .inl ⟨leaf, i, j, congrArg _ hread⟩
  | error e t' =>
    rw [hleaf] at hread
    exact .inr ⟨e, i, j, congrArg _ hread⟩

/-! ### Insertion -/

/-- The left half stays on the page, and the right half gets a new one. -/
theorem costs_splitLeafPage {l : Leaf} (hl : z.Holds l.page) :
    Costs z (splitLeafPage l) 3 (fun s => s.left = l.page ∧ z.Holds s.right) Failure.Midway := by
  refine costs_newPage.bind (n := 2) fun q hq => ?_
  refine (costs_ofChecked (Q := fun parts => z.Holds parts.1.page ∧ z.Holds parts.2.2.page)
    (fun _ h => ?_) fun _ => trivial).read fun parts ⟨hleft, hright⟩ => ?_
  · obtain ⟨hleft, hright⟩ := Leaf.page_of_split h
    rw [hleft, hright]
    exact ⟨hl, .inr hq⟩
  · refine (costs_putLeaf hleft).bind (n := 1) fun _ _ => ?_
    exact (costs_putLeaf hright).bind (n := 0) fun _ _ => costs_pure ⟨rfl, .inr hq⟩

/-- Three writes, and one for each child of the right half. -/
theorem costs_splitInternalPage {n : Internal} (hn : z.Holds n.page)
    (hchildren : ∀ c ∈ n.children, z.Links c) :
    Costs z (splitInternalPage n) (n.children.length - Internal.splitPosition + 3)
      (fun s => s.left = n.page ∧ z.Holds s.right) Failure.Midway := by
  refine (costs_newPage.bind (n := n.children.length - Internal.splitPosition + 2)
    fun q hq => ?_).of_le (Nat.le_of_eq (Nat.add_comm ..))
  refine (costs_ofResult (Q := fun parts => z.Holds parts.1.page ∧ z.Holds parts.2.2.page ∧
    parts.2.2.children ⊆ n.children ∧
      parts.2.2.children.length ≤ n.children.length - Internal.splitPosition)
    (fun _ h => ?_) fun _ => Internal.midway_of_split).read fun parts ⟨hleft, hright, hsub, hle⟩ => ?_
  · obtain ⟨hleft, hright, happend, hlength⟩ := Internal.of_split h
    rw [hleft, hright, ← happend, List.length_append, hlength]
    exact ⟨hn, .inr hq, List.subset_append_right _ _, Nat.le_sub_of_add_le (Nat.add_comm ..).le⟩
  · refine ((costs_putInternal hleft).bind
      (n := n.children.length - Internal.splitPosition + 1) fun _ _ => ?_).of_le
      (Nat.le_of_eq (Nat.add_comm ..))
    refine ((costs_putInternal hright).bind (n := n.children.length - Internal.splitPosition)
      fun _ _ => ?_).of_le (Nat.le_of_eq (Nat.add_comm ..))
    refine ((costs_relinkAll (fun c hc => hchildren c (hsub hc)) (some q)).bind (n := 0)
      fun _ _ => ?_).of_le hle
    exact costs_pure ⟨rfl, .inr hq⟩

theorem costs_addRoot {s : Split} (hleft : z.Links s.left) (hright : z.Links s.right)
    (hroot : ∀ p : PageId, z.fresh ≤ p.number.toNat → z.root p) :
    Costs z (addRoot s) 5 (fun _ => True) Failure.Midway := by
  refine costs_newPage.bind (n := 4) fun root hnew => costs_get_bind fun t _ => ?_
  refine (costs_putInternal (n := .rootAbove root t.keyType s.left s.separator s.right)
    (.inr hnew)).bind (n := 3) fun _ _ => ?_
  refine (costs_relink hleft _).bind (n := 2) fun _ _ => ?_
  exact (costs_relink hright _).bind (n := 1) fun _ _ => costs_moveRoot (hroot root hnew)

theorem costs_addRightHalf (parent : Internal) (s : Split) :
    Costs z (addRightHalf parent s) 0 (fun n => n.children.length = parent.children.length + 1)
      Failure.Midway := by
  unfold addRightHalf
  dsimp only
  split_ifs
  · exact costs_ofChecked (fun _ h => (Internal.of_insertChild h).2) fun _ => trivial
  · exact costs_fail (Failure.midway_invariantViolation _)

/-- On each level, a node is split that has one child more than a node may have. -/
theorem costs_attachSplit (hz : z.Unbounded) (steps : Nat) (s : Split) :
    Costs z (attachSplit steps s) (7 * steps) (fun _ => True) Failure.Midway := by
  induction steps generalizing s with
  | zero => exact costs_fault trivial
  | succ steps ih =>
    rw [attachSplit]
    cases s.parent with
    | none =>
      exact (costs_addRoot (hz.links _) (hz.links _) fun p _ => hz.root p).of_le (by omega)
    | some p =>
      refine (costs_fetchInternal p).read fun m hm => ?_
      refine (costs_addRightHalf m s).read fun parent hparent => ?_
      split_ifs
      · exact (costs_putInternal (hz.holds _)).of_le (by omega)
      · refine ((costs_splitInternalPage (hz.holds _) fun c _ => hz.links c).bind
          fun s' _ => ih s').of_le ?_
        have : parent.children.length ≤ 7 := hparent ▸ Nat.succ_le_succ hm
        have : Internal.splitPosition = 3 := rfl
        omega

/-! ### Deletion -/

theorem costs_siblings {readSibling : PageId → TreeAction α}
    (h : ∀ p, Costs z (readSibling p) 0 Q Failure.Midway) (parent : Internal) (slot : Nat) :
    Costs z (siblings readSibling parent slot) 0
      (fun s => (∀ a, s.1 = some a → Q a) ∧ ∀ b, s.2 = some b → Q b) Failure.Midway := by
  refine (costs_mapM _ h).read fun right hright => (costs_mapM _ h).read fun left hleft => ?_
  exact costs_pure ⟨hleft, hright⟩

theorem costs_removeChild {parent : Internal} (hparent : parent.children.length ≤ maxChildren)
    (slot : Nat) : Costs z (ofChecked (parent.removeChild slot)) 0
      (fun n => n.2.children.length ≤ maxChildren) Failure.Midway :=
  costs_ofChecked (fun _ h => (Nat.le_of_succ_le (Internal.of_removeChild h).2.le).trans hparent)
    fun _ => trivial

theorem costs_setKey (parent : Internal) (slot : Nat) (key : Field) :
    Costs z (ofChecked (parent.setKey slot key)) 0 (fun n => n.page = parent.page)
      Failure.Midway :=
  costs_ofChecked (fun _ h => Internal.page_of_setKey h) fun _ => trivial

/-- The parent loses a child. -/
theorem costs_mergeLeafPages {parent : Internal} (hparent : parent.children.length ≤ maxChildren)
    {left right : Leaf} (hleft : z.Holds left.page) (hright : z.Holds right.page) :
    Costs z (mergeLeafPages parent left right) 2 (fun n => n.children.length ≤ maxChildren)
      Failure.Midway := by
  refine (costs_separatorIndex _ _ _).read fun slot _ => ?_
  refine (costs_removeChild hparent slot).read fun parts hparts => ?_
  refine (costs_putLeaf (l := left.join right) hleft).bind (n := 1) fun _ _ => ?_
  exact (costs_releasePage hright).bind (n := 0) fun _ _ => costs_pure hparts

/-- Two neighbours and their parent are written. -/
theorem costs_putLeaves {left right : Leaf} {parent : Internal} (hleft : z.Holds left.page)
    (hright : z.Holds right.page) (hparent : z.Holds parent.page) :
    Costs z (putLeaf left >>= fun _ => putLeaf right >>= fun _ => putInternal parent) 3
      (fun _ => True) Failure.Midway := by
  refine (costs_putLeaf hleft).bind (n := 2) fun _ _ => ?_
  exact (costs_putLeaf hright).bind (n := 1) fun _ _ => costs_putInternal hparent

theorem costs_takeFromRightLeaf {parent : Internal} {leaf right : Leaf} (hparent : z.Holds parent.page)
    (hleaf : z.Holds leaf.page) (hright : z.Holds right.page) :
    Costs z (takeFromRightLeaf parent leaf right) 3 (fun _ => True) Failure.Midway := by
  refine (costs_separatorIndex _ _ _).read fun slot _ => ?_
  refine (costs_ofChecked (Q := fun parts => z.Holds parts.1.page ∧ z.Holds parts.2.1.page)
    (fun _ h => ?_) fun _ => trivial).read fun parts ⟨hleaf, hright⟩ => ?_
  · obtain ⟨hpage, hpage'⟩ := Leaf.page_of_shiftLeft h
    rw [hpage, hpage']
    exact ⟨hleaf, hright⟩
  · refine (costs_setKey _ _ _).read fun parent' hpage => ?_
    exact costs_putLeaves hleaf hright (hpage ▸ hparent)

theorem costs_takeFromLeftLeaf {parent : Internal} {left leaf : Leaf} (hparent : z.Holds parent.page)
    (hleft : z.Holds left.page) (hleaf : z.Holds leaf.page) :
    Costs z (takeFromLeftLeaf parent left leaf) 3 (fun _ => True) Failure.Midway := by
  refine (costs_separatorIndex _ _ _).read fun slot _ => ?_
  refine (costs_ofExcept (Q := fun parts => z.Holds parts.1.page ∧ z.Holds parts.2.1.page)
    (fun _ h => ?_) fun _ => Leaf.midway_of_shiftRight).read fun parts ⟨hleft, hleaf⟩ => ?_
  · obtain ⟨hpage, hpage'⟩ := Leaf.page_of_shiftRight h
    rw [hpage, hpage']
    exact ⟨hleft, hleaf⟩
  · refine (costs_setKey _ _ _).read fun parent' hpage => ?_
    exact costs_putLeaves hleft hleaf (hpage ▸ hparent)

/-- Two writes, and one for each child of the right node. -/
theorem costs_mergeInternalPages {parent : Internal}
    (hparent : parent.children.length ≤ maxChildren) {left right : Internal}
    (hleft : z.Holds left.page) (hright : z.Holds right.page)
    (hchildren : ∀ c ∈ right.children, z.Links c) :
    Costs z (mergeInternalPages parent left right) (right.children.length + 2)
      (fun n => n.children.length ≤ maxChildren) Failure.Midway := by
  refine (costs_separatorIndex _ _ _).read fun slot _ => ?_
  refine (costs_removeChild hparent slot).read fun parts hparts => ?_
  refine (costs_relinkAll hchildren _).bind (n := 2) fun _ _ => ?_
  refine (costs_putInternal (n := left.join parts.1 right) hleft).bind (n := 1) fun _ _ => ?_
  exact (costs_releasePage hright).bind (n := 0) fun _ _ => costs_pure hparts

/-- A child is linked to another parent, and two neighbours and their parent are written. -/
theorem costs_putInternals {child : PageId} {p : Option PageId} {left right parent : Internal}
    (hchild : z.Links child) (hleft : z.Holds left.page) (hright : z.Holds right.page)
    (hparent : z.Holds parent.page) :
    Costs z (relink child p >>= fun _ => putInternal left >>= fun _ =>
        putInternal right >>= fun _ => putInternal parent) 4 (fun _ => True) Failure.Midway := by
  refine (costs_relink hchild p).bind (n := 3) fun _ _ => ?_
  refine (costs_putInternal hleft).bind (n := 2) fun _ _ => ?_
  exact (costs_putInternal hright).bind (n := 1) fun _ _ => costs_putInternal hparent

theorem costs_takeFromRightInternal {parent node right : Internal} (hparent : z.Holds parent.page)
    (hnode : z.Holds node.page) (hright : z.Holds right.page)
    (hchildren : ∀ c ∈ right.children, z.Links c) :
    Costs z (takeFromRightInternal parent node right) 4 (fun _ => True) Failure.Midway := by
  refine (costs_separatorIndex _ _ _).read fun slot _ => ?_
  refine (costs_ofChecked (fun _ _ => trivial) fun _ => trivial).read fun k (_ : True) => ?_
  refine (costs_ofChecked (Q := fun parts => z.Links parts.1 ∧ z.Holds parts.2.1.page ∧
    z.Holds parts.2.2.1.page) (fun _ h => ?_) fun _ => trivial).read
    fun parts ⟨hchild, hnode, hright⟩ => ?_
  · obtain ⟨hpage, hpage', hmem⟩ := Internal.of_shiftLeft h
    rw [hpage, hpage']
    exact ⟨hchildren _ hmem, hnode, hright⟩
  · refine (costs_setKey _ _ _).read fun parent' hpage => ?_
    exact costs_putInternals hchild hnode hright (hpage ▸ hparent)

theorem costs_takeFromLeftInternal {parent left node : Internal} (hparent : z.Holds parent.page)
    (hleft : z.Holds left.page) (hnode : z.Holds node.page)
    (hchildren : ∀ c ∈ left.children, z.Links c) :
    Costs z (takeFromLeftInternal parent left node) 4 (fun _ => True) Failure.Midway := by
  refine (costs_separatorIndex _ _ _).read fun slot _ => ?_
  refine (costs_ofChecked (fun _ _ => trivial) fun _ => trivial).read fun k (_ : True) => ?_
  refine (costs_ofExcept (Q := fun parts => z.Links parts.1 ∧ z.Holds parts.2.1.page ∧
    z.Holds parts.2.2.1.page) (fun _ h => ?_) fun _ => Internal.midway_of_shiftRight).read
    fun parts ⟨hchild, hleft, hnode⟩ => ?_
  · obtain ⟨hpage, hpage', hmem⟩ := Internal.of_shiftRight h
    rw [hpage, hpage']
    exact ⟨hchildren _ hmem, hleft, hnode⟩
  · refine (costs_setKey _ _ _).read fun parent' hpage => ?_
    exact costs_putInternals hchild hleft hnode (hpage ▸ hparent)

theorem costs_lowerRoot {root : Internal} (hpage : z.Holds root.page)
    (hchildren : ∀ c ∈ root.children, z.Links c ∧ z.root c) :
    Costs z (lowerRoot root) 3 (fun _ => True) Failure.Midway := by
  unfold lowerRoot
  split_ifs
  · exact (costs_putInternal hpage).of_le (by decide)
  · refine (costs_ofChecked (fun _ h => List.mem_of_getElem? (Positions.get_eq_ok_iff.1 h))
      fun _ => trivial).read fun child hchild => ?_
    obtain ⟨hlinks, hroot⟩ := hchildren child hchild
    refine (costs_relink hlinks _).bind (n := 2) fun _ _ => ?_
    exact (costs_moveRoot hroot).bind (n := 1) fun _ _ => costs_releasePage hpage

/-- On each level, two nodes are merged that have no more children than a node may have. -/
theorem costs_mendInternal (hz : z.Unbounded) (steps : Nat) {node : Internal}
    (hnode : node.children.length ≤ maxChildren) :
    Costs z (mendInternal steps node) (8 * steps) (fun _ => True) Failure.Midway := by
  have hroom : ∀ n : Internal, n.children.length ≤ maxChildren → n.children.length ≤ 6 :=
    fun _ h => h
  induction steps generalizing node with
  | zero => exact costs_fault trivial
  | succ steps ih =>
    rw [mendInternal]
    cases node.parent with
    | none =>
      exact (costs_lowerRoot (hz.holds _) fun c _ => ⟨hz.links c, hz.root c⟩).of_le (by omega)
    | some p =>
      dsimp only
      split_ifs
      · exact (costs_putInternal (hz.holds _)).of_le (by omega)
      · refine (costs_fetchInternal p).read fun parent hparent => ?_
        refine (costs_indexOfChild _ _).read fun slot _ => ?_
        refine (costs_siblings costs_fetchInternal parent slot).read
          fun ⟨left, right⟩ ⟨_, hright⟩ => ?_
        dsimp only
        cases hremedy : Remedy.choose Internal.size minChildren maxChildren node left right with
        | none => exact (costs_fail (Failure.midway_invariantViolation _)).of_le (Nat.zero_le _)
        | some remedy =>
          cases remedy with
          | mergeRight b =>
            have hb := hroom b (hright b (Remedy.suits_of_choose hremedy).1)
            exact ((costs_mergeInternalPages hparent (hz.holds _) (hz.holds _) fun c _ =>
              hz.links c).bind fun _ => ih).of_le (by omega)
          | mergeLeft a =>
            have hnode := hroom node hnode
            exact ((costs_mergeInternalPages hparent (hz.holds _) (hz.holds _) fun c _ =>
              hz.links c).bind fun _ => ih).of_le (by omega)
          | borrowRight b =>
            exact (costs_takeFromRightInternal (hz.holds _) (hz.holds _) (hz.holds _) fun c _ =>
              hz.links c).of_le (by omega)
          | borrowLeft a =>
            exact (costs_takeFromLeftInternal (hz.holds _) (hz.holds _) (hz.holds _) fun c _ =>
              hz.links c).of_le (by omega)

theorem costs_mendLeaf (hz : z.Unbounded) (steps : Nat) (p : PageId) (leaf : Leaf) :
    Costs z (mendLeaf steps p leaf) (8 * steps + 3) (fun _ => True) Failure.Midway := by
  refine (costs_fetchInternal p).read fun parent hparent => ?_
  refine (costs_indexOfChild _ _).read fun slot _ => ?_
  refine (costs_siblings costs_fetchLeaf parent slot).read fun ⟨left, right⟩ _ => ?_
  dsimp only
  cases Remedy.choose Leaf.size minLeafKeys maxLeafKeys leaf left right with
  | none => exact (costs_fail (Failure.midway_invariantViolation _)).of_le (Nat.zero_le _)
  | some remedy =>
    cases remedy with
    | mergeRight b | mergeLeft a =>
      exact ((costs_mergeLeafPages hparent (hz.holds _) (hz.holds _)).bind fun _ =>
        costs_mendInternal hz steps).of_le (by omega)
    | borrowRight b =>
      exact (costs_takeFromRightLeaf (hz.holds _) (hz.holds _) (hz.holds _)).of_le (by omega)
    | borrowLeft a =>
      exact (costs_takeFromLeftLeaf (hz.holds _) (hz.holds _) (hz.holds _)).of_le (by omega)

/-! ### Changes -/

/-- There are fewer pages than a file has bytes. -/
theorem Opened.stepLimit_le {t : Tree} (h : t.Opened) : t.stepLimit ≤ 2 ^ 51 + 1 := by
  have := h.pages_le
  rw [pageSize] at this
  rw [stepLimit]
  omega

/-- The action reads slots and writes some of them, fewer than the counters can count. It refuses a
request only before the first. -/
def Tries (x : TreeAction Unit) : Prop :=
  ∀ t : Tree, t.Opened → ∃ k < 2 ^ 64, Writes k t (finalState (x t)) ∧
    ∀ e, answer (x t) = .error e → 0 < k → e.Midway

theorem Costs.tries {x : TreeAction Unit} {Q : Unit → Prop}
    (h : Costs .all x n Q Failure.Midway) (hn : n < 2 ^ 64) : Tries x := by
  intro t ht
  obtain ⟨k, hk, hw, -, he⟩ := h t ht (Nat.zero_le _)
  exact ⟨k, Nat.lt_of_le_of_lt hk hn, hw, fun e h _ => he e h⟩

theorem tries_fail (e : Error) : Tries (fail e) := fun t _ =>
  ⟨0, by decide, .refl t, fun _ _ h => absurd h (Nat.lt_irrefl 0)⟩

/-- What comes first only reads. -/
theorem Costs.tries_bind {x : TreeAction α} {f : α → TreeAction Unit} (hx : Costs .all x 0 Q E)
    (hf : ∀ a, Q a → Tries (f a)) : Tries (x >>= f) := by
  intro t ht
  obtain ⟨k, hk, hw, ha, -⟩ := hx t ht (Nat.zero_le _)
  obtain rfl := Nat.le_zero.1 hk
  rw [run_bind]
  cases h : x t with
  | ok a t' =>
    rw [h] at hw ha
    obtain ⟨k', hk', hw', he'⟩ := hf a (ha a rfl) t' (hw.wrote ht).1
    exact ⟨k', hk', Nat.zero_add k' ▸ hw.trans hw', he'⟩
  | error e t' =>
    rw [h] at hw
    exact ⟨0, by decide, hw, fun _ _ h => absurd h (Nat.lt_irrefl 0)⟩

/-- What comes first writes a slot or refuses the request. -/
theorem Costs.tries_after {x : TreeAction α} {f : α → TreeAction Unit}
    (hx : ∀ t, t.Opened → Whole x t (fun _ t' => t.Wrote t') fun _ => True)
    (hw : ∀ {t a t'}, x t = .ok a t' → SlotWriteIn .all t t')
    (hf : ∀ a, Costs .all (f a) n (fun _ => True) Failure.Midway) (hn : n + 1 < 2 ^ 64) :
    Tries (x >>= f) := by
  intro t ht
  rw [run_bind]
  cases h : x t with
  | ok a t' =>
    have hwrite := (hw h).writes
    obtain ⟨k, hk, hw', -, he⟩ := hf a t' ((hx t ht).of_ok h).opened (Nat.zero_le _)
    exact ⟨1 + k, by omega, hwrite.trans hw', fun e h _ => he e h⟩
  | error e t' =>
    obtain ⟨rfl, -⟩ := (hx t ht).of_error h
    exact ⟨0, by decide, .refl t', fun _ _ h => absurd h (Nat.lt_irrefl 0)⟩

theorem tries_replaceRecord {r : Record} (hr : r.validate = .ok ()) :
    Tries (replaceRecord r) := by
  refine (costs_findLeaf r.key).tries_bind fun leaf _ => ?_
  cases Keys.indexOf? r.key leaf.keys with
  | none => exact tries_fail _
  | some i =>
    refine (costs_ofChecked (Q := fun _ => True) (fun _ _ => trivial) fun _ => trivial).tries_bind
      (E := Failure.Midway) fun id _ => ?_
    rw [← bind_pure (onRecords _)]
    exact Costs.tries_after (fun _ ht => whole_replaceRecord ht id r) (.replaceRecord trivial hr)
      (fun _ => costs_pure trivial) (by decide)

/-- What is done with the leaf that has taken an entry. -/
theorem costs_writeGrown (hz : z.Unbounded) (leaf : Leaf) :
    Costs z (if leaf.size ≤ maxLeafKeys then putLeaf leaf
      else do
        let steps := (← get).stepLimit
        attachSplit steps (← splitLeafPage leaf)) (7 * (2 ^ 51 + 1) + 3) (fun _ => True)
      Failure.Midway := by
  split_ifs
  · exact (costs_putLeaf (hz.holds _)).of_le (by decide)
  · refine costs_get_bind fun t ht => ?_
    refine ((costs_splitLeafPage (hz.holds _)).bind fun s _ => costs_attachSplit hz _ s).of_le ?_
    have := ht.stepLimit_le
    omega

/-- What is done with the leaf that has lost an entry. -/
theorem costs_writeShrunk (hz : z.Unbounded) (leaf : Leaf) :
    Costs z (match leaf.parent with
      | none => putLeaf leaf
      | some p =>
        if minLeafKeys ≤ leaf.size then putLeaf leaf
        else do
          mendLeaf (← get).stepLimit p leaf) (8 * (2 ^ 51 + 1) + 3) (fun _ => True)
      Failure.Midway := by
  cases leaf.parent with
  | none => exact (costs_putLeaf (hz.holds _)).of_le (by decide)
  | some p =>
    dsimp only
    split_ifs
    · exact (costs_putLeaf (hz.holds _)).of_le (by decide)
    · refine costs_get_bind fun t ht => (costs_mendLeaf hz _ p leaf).of_le ?_
      have := ht.stepLimit_le
      omega

theorem tries_addRecord {r : Record} (hr : r.validate = .ok ()) : Tries (addRecord r) := by
  refine (costs_findLeaf r.key).tries_bind fun leaf _ => ?_
  split_ifs
  · exact tries_fail _
  · refine Costs.tries_after (n := 7 * (2 ^ 51 + 1) + 3) (fun _ ht => whole_addRecord ht r)
      (.addRecord trivial hr) (fun id => ?_) (by decide)
    refine (costs_ofChecked (fun _ _ => trivial) fun _ => trivial).read fun leaf (_ : True) => ?_
    exact costs_writeGrown Zone.unbounded_all leaf

theorem tries_removeKey (key : Field) : Tries (removeKey key) := by
  refine (costs_findLeaf key).tries_bind fun leaf _ => ?_
  cases Keys.indexOf? key leaf.keys with
  | none => exact tries_fail _
  | some i =>
    refine Costs.tries (n := 1 + (8 * (2 ^ 51 + 1) + 3)) (Q := fun _ => True) ?_ (by decide)
    refine (costs_ofChecked (fun _ _ => trivial) fun _ => trivial).read
      fun ⟨id, leaf⟩ (_ : True) => ?_
    refine (costs_of_whole (fun _ ht => whole_eraseRecord ht id) (.eraseRecord trivial)).bind
      fun _ _ => ?_
    exact costs_writeShrunk Zone.unbounded_all leaf

end Tree
end RecordIndex
