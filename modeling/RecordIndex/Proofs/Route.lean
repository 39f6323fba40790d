import Mathlib.Data.List.Perm.Basic
import RecordIndex.Proofs.Shape

/-!
# Ways into a tree

A `Route H h` leads from the root of a tree of height `H` down to a place for a tree of height `h`.
It remembers what stands to the left and to the right of the way at every node, the nearest sibling
first, so that the tree can be put together again around anything that is put in that place
(`Route.plug`).

* `Fork.splice` puts a child between its siblings.
* `Route.stored_plug`, `Route.occupied_plug`, `Route.line_plug` and `Route.pages_plug` say that a
  tree consists of what is in the place and of what is around it.
-/

namespace RecordIndex

namespace Fork

variable {α : Type}

/-- The node with a child between its siblings: those to the left, the nearest first, with the
separators behind them, and those to the right with the separators in front of them. -/
def splice (page : PageId) : List (α × Field) → α → List (Field × α) → Fork α
  | [], c, right => ⟨page, c, right⟩
  | (a, k) :: left, c, right => splice page left a ((k, c) :: right)

variable {page : PageId} {left : List (α × Field)} {c : α} {right : List (Field × α)}

@[simp] theorem page_splice : (splice page left c right).page = page := by
  induction left generalizing c right with
  | nil => rfl
  | cons e left ih => exact ih

@[simp] theorem keys_splice :
    (splice page left c right).keys = (left.map Prod.snd).reverse ++ right.map Prod.fst := by
  induction left generalizing c right with
  | nil => rfl
  | cons e left ih =>
    rw [splice, ih, List.map_cons, List.map_cons, List.reverse_cons, List.append_assoc]
    rfl

@[simp] theorem kids_splice :
    (splice page left c right).kids = (left.map Prod.fst).reverse ++ c :: right.map Prod.snd := by
  induction left generalizing c right with
  | nil => rfl
  | cons e left ih =>
    rw [splice, ih, List.map_cons, List.map_cons, List.reverse_cons, List.append_assoc]
    rfl

/-- Any child can be taken as the one between its siblings. -/
theorem exists_splice (f : Fork α) {i : Nat} (hi : i ≤ f.keys.length) :
    ∃ left c right, left.length = i ∧ splice f.page left c right = f := by
  induction i with
  | zero => exact ⟨[], f.first, f.rest, rfl, rfl⟩
  | succ i ih =>
    obtain ⟨left, c, right, rfl, hf⟩ := ih (by omega)
    cases right with
    | nil =>
      rw [← hf, keys_splice] at hi
      simp only [List.map_nil, List.append_nil, List.length_reverse, List.length_map] at hi
      omega
    | cons e right => exact ⟨(c, e.1) :: left, e.2, right, rfl, hf⟩

end Fork

/-- A way from the root of a tree of height `H` to the place of a tree of height `h`. -/
inductive Route (H : Nat) : Nat → Type where
  | top : Route H H
  | down {h : Nat} (page : PageId) (left : List (Shape h × Field)) (right : List (Field × Shape h))
      (above : Route H (h + 1)) : Route H h

namespace Route

variable {H h : Nat} {look look' : PageId → Option Node} {keyType : FieldType}

/-- The node with a child in its place. -/
def fork (page : PageId) (left : List (Shape h × Field)) (s : Shape h)
    (right : List (Field × Shape h)) : Shape (h + 1) :=
  Fork.splice page left s right

/-- The whole tree, with `s` in the place that the way leads to. -/
def plug : {h : Nat} → Route H h → Shape h → Shape H
  | _, top, s => s
  | _, down page left right above, s => above.plug (fork page left s right)

/-- The page of the node above the place. -/
def parent : {h : Nat} → Route H h → Option PageId
  | _, top => none
  | _, down page _ _ _ => some page

/-- The number of nodes above the place. -/
def length : {h : Nat} → Route H h → Nat
  | _, top => 0
  | _, down _ _ _ above => above.length + 1

/-- Whether the place is that of the root. -/
def isTop : {h : Nat} → Route H h → Bool
  | _, top => true
  | _, down .. => false

/-- The pages of all other nodes. -/
def pages : {h : Nat} → Route H h → List PageId
  | _, top => []
  | _, down page left right above =>
    page :: (left.flatMap fun e => e.1.pages) ++ (right.flatMap fun e => e.2.pages) ++ above.pages

/-- What stands to the left of the place. -/
def before : {h : Nat} → Route H h → List Mark
  | _, top => []
  | _, down _ left _ above =>
    above.before ++ left.reverse.flatMap fun e => e.1.line ++ [.separator e.2]

/-- What stands to the right of the place. -/
def after : {h : Nat} → Route H h → List Mark
  | _, top => []
  | _, down _ _ right above =>
    (right.flatMap fun e => .separator e.1 :: e.2.line) ++ above.after

/-- All other nodes stand on their pages, where `s` is in the place. -/
def Stored (look : PageId → Option Node) (keyType : FieldType) :
    {h : Nat} → Route H h → Shape h → Prop
  | _, top, _ => True
  | _, down page left right above, s =>
    look page = some ((fork page left s right).node keyType above.parent) ∧
      (∀ e ∈ left, e.1.Stored look keyType (some page)) ∧
      (∀ e ∈ right, e.2.Stored look keyType (some page)) ∧
      above.Stored look keyType (fork page left s right)

/-- No other node is too full or too empty. -/
def Occupied : {h : Nat} → Route H h → Prop
  | _, top => True
  | h, down _ left right above =>
    (Shape.least above.isTop (h + 1) ≤ left.length + 1 + right.length ∧
      left.length + 1 + right.length ≤ Shape.most (h + 1)) ∧
      (∀ e ∈ left, e.1.Occupied false) ∧ (∀ e ∈ right, e.2.Occupied false) ∧ above.Occupied

theorem page_fork {page : PageId} {left : List (Shape h × Field)} {s : Shape h}
    {right : List (Field × Shape h)} : (fork page left s right).page = page :=
  Fork.page_splice

theorem kids_fork {page : PageId} {left : List (Shape h × Field)} {s : Shape h}
    {right : List (Field × Shape h)} : Fork.kids (fork page left s right) =
      (left.map Prod.fst).reverse ++ s :: right.map Prod.snd :=
  Fork.kids_splice

theorem keys_fork {page : PageId} {left : List (Shape h × Field)} {s : Shape h}
    {right : List (Field × Shape h)} : Fork.keys (fork page left s right) =
      (left.map Prod.snd).reverse ++ right.map Prod.fst :=
  Fork.keys_splice

theorem forall_kids_fork {page : PageId} {left : List (Shape h × Field)} {s : Shape h}
    {right : List (Field × Shape h)} {p : Shape h → Prop} :
    (∀ c ∈ Fork.kids (fork page left s right), p c) ↔
      p s ∧ (∀ e ∈ left, p e.1) ∧ ∀ e ∈ right, p e.2 := by
  rw [kids_fork]
  simp only [List.mem_append, List.mem_reverse, List.mem_map, List.mem_cons]
  constructor
  · intro h
    exact ⟨h s (.inr (.inl rfl)), fun e he => h e.1 (.inl ⟨e, he, rfl⟩),
      fun e he => h e.2 (.inr (.inr ⟨e, he, rfl⟩))⟩
  · rintro ⟨hs, hl, hr⟩ c (⟨e, he, rfl⟩ | rfl | ⟨e, he, rfl⟩)
    · exact hl e he
    · exact hs
    · exact hr e he

theorem size_fork {page : PageId} {left : List (Shape h × Field)} {s : Shape h}
    {right : List (Field × Shape h)} :
    (fork page left s right).size = left.length + 1 + right.length := by
  show (Fork.kids (fork page left s right)).length = _
  rw [kids_fork, List.length_append, List.length_cons, List.length_reverse, List.length_map,
    List.length_map]
  omega

/-- A node shows no more of its children than their pages. -/
theorem internal_fork {page : PageId} {left : List (Shape h × Field)} {s : Shape h}
    {right : List (Field × Shape h)} {parent : Option PageId} :
    (fork page left s right).internal keyType parent =
      ⟨page, parent, keyType, (left.map Prod.snd).reverse ++ right.map Prod.fst,
        (left.map fun e => e.1.page).reverse ++ s.page :: right.map fun e => e.2.page⟩ := by
  rw [Shape.internal, show Fork.page (fork page left s right) = page from page_fork, keys_fork,
    kids_fork]
  simp [Function.comp_def]

theorem internal_fork_congr {page : PageId} {left : List (Shape h × Field)} {a b c d : Shape h}
    {k : Field} {right : List (Field × Shape h)} {parent : Option PageId} (hc : c.page = a.page)
    (hd : d.page = b.page) : (fork page left c ((k, d) :: right)).internal keyType parent =
      (fork page left a ((k, b) :: right)).internal keyType parent := by
  rw [internal_fork, internal_fork, hc, List.map_cons, List.map_cons, hd, List.map_cons,
    List.map_cons]

theorem node_fork {page : PageId} {left : List (Shape h × Field)} {s s' : Shape h}
    {right : List (Field × Shape h)} {parent : Option PageId} (heq : s'.page = s.page) :
    (fork page left s' right).node keyType parent =
      (fork page left s right).node keyType parent := by
  show Node.internal _ = Node.internal _
  rw [internal_fork, internal_fork, heq]

theorem line_fork {page : PageId} {left : List (Shape h × Field)} {s : Shape h}
    {right : List (Field × Shape h)} : (fork page left s right).line =
      (left.reverse.flatMap fun e => e.1.line ++ [.separator e.2]) ++ s.line ++
        right.flatMap fun e => .separator e.1 :: e.2.line := by
  induction left generalizing s right with
  | nil => rfl
  | cons e left ih =>
    show (fork page left e.1 ((e.2, s) :: right)).line = _
    rw [ih]
    simp

theorem pages_fork {page : PageId} {left : List (Shape h × Field)} {s : Shape h}
    {right : List (Field × Shape h)} : (fork page left s right).pages.Perm
      (page :: (left.flatMap fun e => e.1.pages) ++ (right.flatMap fun e => e.2.pages) ++
        s.pages) := by
  show (Fork.page (fork page left s right) :: (Fork.kids (fork page left s right)).flatMap _).Perm _
  rw [show Fork.page (fork page left s right) = page from page_fork, kids_fork, List.flatMap_append,
    List.flatMap_cons, List.cons_append, List.cons_append]
  refine List.Perm.cons _ ?_
  have hleft : ((left.map Prod.fst).reverse.flatMap Shape.pages).Perm
      (left.flatMap fun e => e.1.pages) := by
    rw [← List.map_reverse, List.flatMap_map]
    exact left.reverse_perm.flatMap_right _
  rw [List.flatMap_map, List.append_assoc]
  exact hleft.append List.perm_append_comm

/-! ### Trees around a place -/

theorem stored_fork {page : PageId} {left : List (Shape h × Field)} {s : Shape h}
    {right : List (Field × Shape h)} {parent : Option PageId} :
    (fork page left s right).Stored look keyType parent ↔
      look page = some ((fork page left s right).node keyType parent) ∧
        s.Stored look keyType (some page) ∧ (∀ e ∈ left, e.1.Stored look keyType (some page)) ∧
          ∀ e ∈ right, e.2.Stored look keyType (some page) := by
  rw [Shape.Stored, page_fork, Shape.below_succ,
    show Fork.page (fork page left s right) = page from page_fork, forall_kids_fork]

theorem below_fork {page : PageId} {left : List (Shape h × Field)} {s : Shape h}
    {right : List (Field × Shape h)} : (fork page left s right).Below look keyType ↔
      s.Stored look keyType (some page) ∧ (∀ e ∈ left, e.1.Stored look keyType (some page)) ∧
        ∀ e ∈ right, e.2.Stored look keyType (some page) := by
  rw [Shape.below_succ, show Fork.page (fork page left s right) = page from page_fork,
    forall_kids_fork]

theorem filled_fork {page : PageId} {left : List (Shape h × Field)} {s : Shape h}
    {right : List (Field × Shape h)} : (fork page left s right).Filled ↔
      s.Occupied false ∧ (∀ e ∈ left, e.1.Occupied false) ∧ ∀ e ∈ right, e.2.Occupied false := by
  show (∀ c ∈ Fork.kids (fork page left s right), _) ↔ _
  rw [forall_kids_fork]
  rfl

/-- The tree is stored exactly if what is in the place and all around it are. -/
theorem stored_plug {r : Route H h} {s : Shape h} : (r.plug s).Stored look keyType none ↔
    r.Stored look keyType s ∧ s.Stored look keyType r.parent := by
  induction r with
  | top => exact (true_and _).symm.to_iff
  | down page left right above ih =>
    rw [plug, ih, stored_fork]
    simp only [Stored, parent]
    constructor
    · rintro ⟨ha, hpage, hs, hl, hr⟩
      exact ⟨⟨hpage, hl, hr, ha⟩, hs⟩
    · rintro ⟨⟨hpage, hl, hr, ha⟩, hs⟩
      exact ⟨ha, hpage, hs, hl, hr⟩

theorem occupied_plug {r : Route H h} {s : Shape h} : (r.plug s).Occupied true ↔
    r.Occupied ∧ s.Occupied r.isTop := by
  induction r with
  | top => exact (true_and _).symm.to_iff
  | down page left right above ih =>
    rw [plug, ih, Shape.Occupied, size_fork, filled_fork]
    simp only [Occupied, isTop]
    constructor
    · rintro ⟨ha, hsize, hs, hl, hr⟩
      exact ⟨⟨hsize, hl, hr, ha⟩, hs⟩
    · rintro ⟨⟨hsize, hl, hr, ha⟩, hs⟩
      exact ⟨ha, hsize, hs, hl, hr⟩

theorem line_plug (r : Route H h) (s : Shape h) :
    (r.plug s).line = r.before ++ s.line ++ r.after := by
  induction r with
  | top => simp [plug, before, after]
  | down page left right above ih =>
    rw [plug, ih, line_fork]
    simp [before, after]

/-- The entries of the tree are those in the place and those on both sides of it. -/
theorem entries_plug (r : Route H h) (s : Shape h) : (r.plug s).entries =
    r.before.filterMap Mark.entry? ++ s.entries ++ r.after.filterMap Mark.entry? := by
  rw [← Shape.filterMap_line, line_plug, List.filterMap_append, List.filterMap_append,
    Shape.filterMap_line]

theorem pages_plug (r : Route H h) (s : Shape h) : (r.plug s).pages.Perm (r.pages ++ s.pages) := by
  induction r with
  | top => exact List.Perm.refl _
  | down page left right above ih =>
    refine (ih _).trans ((List.perm_append_comm.trans (pages_fork.append_right _)).trans ?_)
    rw [pages, List.append_assoc _ s.pages, List.append_assoc _ above.pages]
    exact List.Perm.append_left _ List.perm_append_comm

theorem page_plug {r : Route H h} {s s' : Shape h} (heq : s'.page = s.page) :
    (r.plug s').page = (r.plug s).page := by
  induction r with
  | top => exact heq
  | down page left right above ih =>
    refine ih ?_
    rw [page_fork, page_fork]

theorem Stored.congr {r : Route H h} {s : Shape h} (hr : r.Stored look keyType s)
    (heq : ∀ p ∈ r.pages, look' p = look p) : r.Stored look' keyType s := by
  induction r with
  | top => exact trivial
  | down page left right above ih =>
    obtain ⟨hpage, hleft, hright, habove⟩ := hr
    simp only [pages, List.mem_append, List.mem_cons, List.mem_flatMap] at heq
    refine ⟨by rw [heq page (.inl (.inl (.inl rfl))), hpage], fun e he => ?_, fun e he => ?_,
      ih habove fun p hp => heq p (.inr hp)⟩
    · exact (hleft e he).congr fun p hp => heq p (.inl (.inl (.inr ⟨e, he, hp⟩)))
    · exact (hright e he).congr fun p hp => heq p (.inl (.inr ⟨e, he, hp⟩))

/-- There is a node on every page around a place. -/
theorem Stored.exists_node {r : Route H h} {s : Shape h} (hr : r.Stored look keyType s) {p : PageId}
    (hp : p ∈ r.pages) : ∃ n, look p = some n := by
  induction r with
  | top => cases hp
  | down page left right above ih =>
    obtain ⟨hpage, hleft, hright, habove⟩ := hr
    simp only [pages, List.mem_append, List.mem_cons, List.mem_flatMap] at hp
    rcases hp with ((rfl | ⟨e, he, hp⟩) | ⟨e, he, hp⟩) | hp
    · exact ⟨_, hpage⟩
    · exact (hleft e he).exists_node hp
    · exact (hright e he).exists_node hp
    · exact ih habove hp

/-- The nodes around a place know only the page of what is in it. -/
theorem Stored.of_page_eq {r : Route H h} {s s' : Shape h} (hr : r.Stored look keyType s)
    (heq : s'.page = s.page) : r.Stored look keyType s' := by
  induction r with
  | top => exact trivial
  | down page left right above ih =>
    obtain ⟨hpage, hleft, hright, habove⟩ := hr
    exact ⟨by rw [node_fork heq, hpage], hleft, hright, ih habove (by rw [page_fork, page_fork])⟩

theorem length_add (r : Route H h) : r.length + h = H := by
  induction r with
  | top => exact Nat.zero_add _
  | down page left right above ih =>
    rw [length]
    omega

theorem length_le_length_pages (r : Route H h) : r.length ≤ r.pages.length := by
  induction r with
  | top => exact Nat.zero_le _
  | down page left right above ih =>
    simp only [length, pages, List.length_append, List.length_cons]
    omega

end Route
end RecordIndex
