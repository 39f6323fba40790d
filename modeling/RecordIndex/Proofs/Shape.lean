import Mathlib.Algebra.GroupWithZero.Nat
import Mathlib.Data.List.Nodup
import Mathlib.Data.Prod.Lex
import Mathlib.Logic.Function.Basic
import RecordIndex.Proofs.Codec.NodePage
import RecordIndex.Proofs.FieldOrder

/-!
# The shape of a tree

A `Shape h` is a tree of pages of which every leaf is `h` levels below the root: the pages with the
entries of the leaves and the separators of the internal nodes. It says all about a tree but where
the parent links go, and those follow from it.

* `Shape.Stored`: every node of the shape stands on its page, with the parent link that it should
  have.
* `Shape.Ranged`: the keys of every node ascend in the range that the separators above leave to
  them.
* `Shape.Occupied`: no node is too full or too empty.
* `Shape.line`: the entries and separators from left to right.
-/

namespace RecordIndex

/-- A leaf: its page and its entries. -/
structure Twig where
  page : PageId
  entries : List (Field × RecordId)

/-- An internal node: its page, its first child, and the other children with the separators in front
of them. -/
structure Fork (α : Type) where
  page : PageId
  first : α
  rest : List (Field × α)

/-- A tree whose leaves are all `h` levels below its root. -/
def Shape : Nat → Type
  | 0 => Twig
  | h + 1 => Fork (Shape h)

namespace Twig

/-- The leaf as it stands on its page. -/
def toLeaf (keyType : FieldType) (parent : Option PageId) (w : Twig) : Leaf :=
  ⟨w.page, parent, keyType, w.entries.map Prod.fst, w.entries.map Prod.snd⟩

end Twig

namespace Fork

variable {α : Type}

/-- The separators. -/
def keys (f : Fork α) : List Field := f.rest.map Prod.fst

/-- The children. -/
def kids (f : Fork α) : List α := f.first :: f.rest.map Prod.snd

theorem length_kids (f : Fork α) : f.kids.length = f.keys.length + 1 := by
  simp [kids, keys]

/-- The children keep to the ranges that the separators cut `lower` to `upper` into. -/
def Ranges (p : Option Field → Option Field → α → Prop) :
    Option Field → α → List (Field × α) → Option Field → Prop
  | lower, c, [], upper => p lower upper c
  | lower, c, (k, d) :: rest, upper => p lower (some k) c ∧ Ranges p (some k) d rest upper

end Fork

/-- A key lies in a half-open range, of which either end may be missing. -/
def Field.Within (lower upper : Option Field) (k : Field) : Prop :=
  (∀ l ∈ lower, l ≤ k) ∧ ∀ u ∈ upper, k < u

/-- A separator, or an entry of a leaf. -/
inductive Mark where
  | separator (key : Field)
  | entry (key : Field) (record : RecordId)

namespace Mark

/-- A separator comes right in front of an entry with the same key. -/
def rank : Mark → Field ×ₗ Bool
  | separator k => toLex (k, false)
  | entry k _ => toLex (k, true)

/-- The key of a separator or entry. -/
def key : Mark → Field
  | separator k => k
  | entry k _ => k

/-- The entry, if it is one. -/
def entry? : Mark → Option (Field × RecordId)
  | separator _ => none
  | entry k id => some (k, id)

end Mark

namespace Shape

variable {h : Nat}

/-- The tree that is only a leaf. -/
def twig (page : PageId) (entries : List (Field × RecordId)) : Shape 0 :=
  (⟨page, entries⟩ : Twig)

/-- The tree with an internal node above smaller trees. -/
def inner (page : PageId) (first : Shape h) (rest : List (Field × Shape h)) : Shape (h + 1) :=
  (⟨page, first, rest⟩ : Fork (Shape h))

/-- The page of the root. -/
def page : {h : Nat} → Shape h → PageId
  | 0, s => Twig.page s
  | _ + 1, s => Fork.page s

/-- The number of entries of a leaf, or of children of an internal node. -/
def size : {h : Nat} → Shape h → Nat
  | 0, s => (Twig.entries s).length
  | _ + 1, s => (Fork.kids s).length

/-- An internal root as it stands on its page. -/
def internal (keyType : FieldType) (parent : Option PageId) (s : Shape (h + 1)) : Internal :=
  ⟨Fork.page s, parent, keyType, Fork.keys s, (Fork.kids s).map page⟩

/-- The root as it stands on its page. -/
def node (keyType : FieldType) (parent : Option PageId) : {h : Nat} → Shape h → Node
  | 0, s => .leaf (Twig.toLeaf keyType parent s)
  | _ + 1, s => .internal (internal keyType parent s)

/-- All pages, that of the root first. -/
def pages : {h : Nat} → Shape h → List PageId
  | 0, s => [Twig.page s]
  | _ + 1, s => Fork.page s :: (Fork.kids s).flatMap pages

/-- The pages below the root. -/
def pagesBelow : {h : Nat} → Shape h → List PageId
  | 0, _ => []
  | _ + 1, s => (Fork.kids s).flatMap pages

/-- The entries of all leaves, from left to right. -/
def entries : {h : Nat} → Shape h → List (Field × RecordId)
  | 0, s => Twig.entries s
  | _ + 1, s => (Fork.kids s).flatMap entries

/-- The number of leaves. -/
def leaves : {h : Nat} → Shape h → Nat
  | 0, _ => 1
  | _ + 1, s => ((Fork.kids s).map leaves).sum

/-- The entries and separators from left to right. -/
def line : {h : Nat} → Shape h → List Mark
  | 0, s => (Twig.entries s).map fun e => .entry e.1 e.2
  | _ + 1, s => (Fork.first s).line ++ (Fork.rest s).flatMap fun e => .separator e.1 :: e.2.line

/-- The nodes below the root stand on their pages and link to their parents. -/
def Below (look : PageId → Option Node) (keyType : FieldType) : {h : Nat} → Shape h → Prop
  | 0, _ => True
  | _ + 1, s => ∀ c ∈ Fork.kids s,
      look c.page = some (c.node keyType (some (Fork.page s))) ∧ c.Below look keyType

/-- All nodes stand on their pages. The root links to `parent` and every other node to the one that
it is a child of. -/
def Stored (look : PageId → Option Node) (keyType : FieldType) (parent : Option PageId)
    (s : Shape h) : Prop :=
  look s.page = some (s.node keyType parent) ∧ s.Below look keyType

/-- The keys of every node ascend, in the range that is left to them. -/
def Ranged : {h : Nat} → (lower upper : Option Field) → Shape h → Prop
  | 0, lower, upper, s => ((Twig.entries s).map Prod.fst).Pairwise (· < ·) ∧
      ∀ k ∈ (Twig.entries s).map Prod.fst, k.Within lower upper
  | _ + 1, lower, upper, s => (Fork.keys s).Pairwise (· < ·) ∧
      (∀ k ∈ Fork.keys s, k.Within lower upper) ∧
      Fork.Ranges Ranged lower (Fork.first s) (Fork.rest s) upper

/-- The least size of a node that has leaves `h` levels below it. -/
def least (isRoot : Bool) : (h : Nat) → Nat
  | 0 => if isRoot then 0 else minLeafKeys
  | _ + 1 => if isRoot then minRootChildren else minChildren

/-- The largest size of a node that has leaves `h` levels below it. -/
def most : (h : Nat) → Nat
  | 0 => maxLeafKeys
  | _ + 1 => maxChildren

/-- The nodes below the root are neither too full nor too empty. -/
def Filled : {h : Nat} → Shape h → Prop
  | 0, _ => True
  | h + 1, s => ∀ c ∈ Fork.kids s, (least false h ≤ c.size ∧ c.size ≤ most h) ∧ c.Filled

/-- No node is too full or too empty. The root of a tree may be emptier than other nodes. -/
def Occupied (isRoot : Bool) (s : Shape h) : Prop :=
  (least isRoot h ≤ s.size ∧ s.size ≤ most h) ∧ s.Filled

/-- The entries and separators ascend. -/
def Ascending (line : List Mark) : Prop := line.Pairwise fun a b => a.rank < b.rank

@[simp] theorem page_twig (p : PageId) (es : List (Field × RecordId)) : (twig p es).page = p := rfl

@[simp] theorem page_inner (p : PageId) (c : Shape h) (rest : List (Field × Shape h)) :
    (inner p c rest).page = p := rfl

@[simp] theorem size_twig (p : PageId) (es : List (Field × RecordId)) :
    (twig p es).size = es.length := rfl

@[simp] theorem size_inner (p : PageId) (c : Shape h) (rest : List (Field × Shape h)) :
    (inner p c rest).size = rest.length + 1 := by
  show (c :: rest.map Prod.snd).length = _
  rw [List.length_cons, List.length_map]

@[simp] theorem line_twig (p : PageId) (es : List (Field × RecordId)) :
    (twig p es).line = es.map fun e => .entry e.1 e.2 := rfl

@[simp] theorem line_inner (p : PageId) (c : Shape h) (rest : List (Field × Shape h)) :
    (inner p c rest).line = c.line ++ rest.flatMap fun e => .separator e.1 :: e.2.line := rfl

@[simp] theorem entries_twig (p : PageId) (es : List (Field × RecordId)) :
    (twig p es).entries = es := rfl

@[simp] theorem pages_twig (p : PageId) (es : List (Field × RecordId)) :
    (twig p es).pages = [p] := rfl

@[simp] theorem pages_inner (p : PageId) (c : Shape h) (rest : List (Field × Shape h)) :
    (inner p c rest).pages = p :: (c.pages ++ rest.flatMap fun e => e.2.pages) := by
  show p :: (c :: rest.map Prod.snd).flatMap pages = _
  rw [List.flatMap_cons, List.flatMap_map]

theorem exists_twig (s : Shape 0) : ∃ es, s = twig s.page es := ⟨_, rfl⟩

theorem exists_inner (s : Shape (h + 1)) : ∃ c rest, s = inner s.page c rest := ⟨_, _, rfl⟩

/-! ### Pages -/

theorem pages_eq (s : Shape h) : s.pages = s.page :: s.pagesBelow := by
  cases h <;> rfl

@[simp] theorem page_node (s : Shape h) (keyType : FieldType) (parent : Option PageId) :
    (s.node keyType parent).page = s.page := by
  cases h <;> rfl

@[simp] theorem parent_node (s : Shape h) (keyType : FieldType) (parent : Option PageId) :
    (s.node keyType parent).parent = parent := by
  cases h <;> rfl

theorem page_mem_pages (s : Shape h) : s.page ∈ s.pages := by
  rw [pages_eq]
  exact List.mem_cons_self

theorem pagesBelow_subset (s : Shape h) : s.pagesBelow ⊆ s.pages := by
  rw [pages_eq]
  exact List.subset_cons_self _ _

variable {look look' : PageId → Option Node} {keyType : FieldType} {parent : Option PageId}

theorem below_succ {s : Shape (h + 1)} : s.Below look keyType ↔
    ∀ c ∈ Fork.kids s, c.Stored look keyType (some (Fork.page s)) := Iff.rfl

theorem Below.congr {s : Shape h} (hs : s.Below look keyType)
    (heq : ∀ p ∈ s.pagesBelow, look' p = look p) : s.Below look' keyType := by
  induction h with
  | zero => exact trivial
  | succ h ih =>
    intro c hc
    have hsub : ∀ p ∈ c.pages, look' p = look p := fun p hp =>
      heq p (List.mem_flatMap.2 ⟨c, hc, hp⟩)
    obtain ⟨hpage, hbelow⟩ := hs c hc
    exact ⟨by rw [hsub _ c.page_mem_pages, hpage],
      ih hbelow fun p hp => hsub p (c.pagesBelow_subset hp)⟩

/-- A tree stays stored while none of its pages changes. -/
theorem Stored.congr {s : Shape h} (hs : s.Stored look keyType parent)
    (heq : ∀ p ∈ s.pages, look' p = look p) : s.Stored look' keyType parent := by
  rw [pages_eq] at heq
  refine ⟨by rw [heq _ List.mem_cons_self, hs.1], hs.2.congr fun p hp => ?_⟩
  exact heq p (List.mem_cons_of_mem _ hp)

/-- There is a node on every page of a stored tree. -/
theorem Stored.exists_node {s : Shape h} (hs : s.Stored look keyType parent) {p : PageId}
    (hp : p ∈ s.pages) : ∃ n, look p = some n := by
  induction h generalizing parent with
  | zero =>
    rw [List.mem_singleton.1 hp]
    exact ⟨_, hs.1⟩
  | succ h ih =>
    rcases List.mem_cons.1 hp with rfl | hp
    · exact ⟨_, hs.1⟩
    · obtain ⟨c, hc, hp⟩ := List.mem_flatMap.1 hp
      exact ih (hs.2 c hc) hp

/-! ### Entries and separators -/

/-- The pages below a child are below its parent. -/
theorem mem_pages_of_mem_kids {s : Shape (h + 1)} {c : Shape h} (hc : c ∈ Fork.kids s) {p : PageId}
    (hp : p ∈ c.pages) : p ∈ s.pages := by
  rw [pages_eq]
  exact List.mem_cons_of_mem _ (List.mem_flatMap.2 ⟨c, hc, hp⟩)

/-- The pages of a node whose children are dealt out to two nodes. -/
theorem pages_inner_append (p : PageId) (first c : Shape h) (k : Field)
    (xs ys : List (Field × Shape h)) :
    (inner p first (xs ++ (k, c) :: ys)).pages =
      p :: ((inner p first xs).pagesBelow ++ (inner p c ys).pagesBelow) := by
  show p :: (first :: (xs ++ (k, c) :: ys).map Prod.snd).flatMap pages =
    p :: ((first :: xs.map Prod.snd).flatMap pages ++ (c :: ys.map Prod.snd).flatMap pages)
  rw [List.map_append, List.map_cons, ← List.cons_append, List.flatMap_append]

theorem kids_inner_append (p q : PageId) (first c : Shape h) (k : Field)
    (xs ys : List (Field × Shape h)) :
    Fork.kids (inner p first (xs ++ (k, c) :: ys)) =
      Fork.kids (inner p first xs) ++ Fork.kids (inner q c ys) := by
  show first :: (xs ++ (k, c) :: ys).map Prod.snd = _
  rw [List.map_append, List.map_cons, ← List.cons_append]
  rfl

theorem size_inner_append (p q : PageId) (first c : Shape h) (k : Field)
    (xs ys : List (Field × Shape h)) :
    (inner p first (xs ++ (k, c) :: ys)).size = (inner p first xs).size + (inner q c ys).size := by
  simp only [size_inner, List.length_append, List.length_cons]
  omega

theorem line_inner_append (p q : PageId) (first c : Shape h) (k : Field)
    (xs ys : List (Field × Shape h)) :
    (inner p first (xs ++ (k, c) :: ys)).line =
      (inner p first xs).line ++ .separator k :: (inner q c ys).line := by
  simp

theorem line_succ (s : Shape (h + 1)) : s.line =
    (Fork.first s).line ++ (Fork.rest s).flatMap fun e => .separator e.1 :: e.2.line := rfl

theorem filterMap_line (s : Shape h) : s.line.filterMap Mark.entry? = s.entries := by
  induction h with
  | zero =>
    show ((Twig.entries s).map _).filterMap _ = Twig.entries s
    rw [List.filterMap_map]
    exact List.filterMap_some
  | succ h ih =>
    rw [line_succ, List.filterMap_append, ih]
    show _ = (Fork.first s).entries ++ ((Fork.rest s).map Prod.snd).flatMap entries
    congr 1
    induction Fork.rest s with
    | nil => rfl
    | cons e rest ihr =>
      rw [List.flatMap_cons, List.map_cons, List.flatMap_cons, List.filterMap_append, ihr,
        List.filterMap_cons_none rfl, ih]

theorem mem_entries_iff {s : Shape h} {k : Field} {id : RecordId} :
    (k, id) ∈ s.entries ↔ Mark.entry k id ∈ s.line := by
  rw [← filterMap_line, List.mem_filterMap]
  constructor
  · rintro ⟨m, hm, he⟩
    cases m with
    | separator k' => cases he
    | entry k' id' =>
      cases he
      exact hm
  · intro hm
    exact ⟨_, hm, rfl⟩

/-- The keys of a tree that can be read are keys of its type that fit their slots. -/
theorem Stored.key_ok {s : Shape h} (hs : s.Stored look keyType parent)
    (hlook : ∀ {p n}, look p = some n → n.Encodable) {m : Mark} (hm : m ∈ s.line) :
    m.key.type = keyType ∧ m.key.Fits := by
  induction h generalizing parent with
  | zero =>
    obtain ⟨e, he, rfl⟩ := List.mem_map.1 hm
    exact (hlook hs.1).keys_ok e.1 (List.mem_map_of_mem he)
  | succ h ih =>
    rcases List.mem_append.1 hm with hm | hm
    · exact ih (hs.2 (Fork.first s) List.mem_cons_self) hm
    · obtain ⟨e, he, hm⟩ := List.mem_flatMap.1 hm
      rcases List.mem_cons.1 hm with rfl | hm
      · exact (hlook hs.1).keys_ok e.1 (List.mem_map_of_mem he)
      · exact ih (hs.2 e.2 (List.mem_cons_of_mem _ (List.mem_map_of_mem he))) hm

/-- Below a node that is not a root there is always an entry. -/
theorem exists_mem_entries {s : Shape h} (hs : s.Occupied false) : ∃ e, e ∈ s.entries := by
  induction h with
  | zero =>
    have hlen : 3 ≤ (Twig.entries s).length := hs.1.1
    obtain ⟨e, he⟩ := List.exists_mem_of_length_pos (by omega : 0 < (Twig.entries s).length)
    exact ⟨e, he⟩
  | succ h ih =>
    obtain ⟨e, he⟩ := ih (hs.2 (Fork.first s) List.mem_cons_self)
    exact ⟨e, List.mem_flatMap.2 ⟨_, List.mem_cons_self, he⟩⟩

/-! ### Ranges and the order from left to right -/

/-- The entries and separators lie in a half-open range, and separators not at its lower end. -/
def Bounded (lower upper : Option Field) (line : List Mark) : Prop :=
  ∀ m ∈ line, (∀ l ∈ lower, toLex (l, false) < m.rank) ∧ ∀ u ∈ upper, m.rank < toLex (u, false)

theorem separator_lt_entry {k k' : Field} {id : RecordId} :
    toLex (k, false) < (Mark.entry k' id).rank ↔ k ≤ k' := by
  rw [Mark.rank, Prod.Lex.toLex_lt_toLex, le_iff_lt_or_eq]
  simp

theorem entry_lt_separator {k k' : Field} {id : RecordId} :
    (Mark.entry k id).rank < toLex (k', false) ↔ k < k' := by
  rw [Mark.rank, Prod.Lex.toLex_lt_toLex]
  simp

theorem separator_lt_separator {k k' : Field} :
    (toLex (k, false) : Field ×ₗ Bool) < toLex (k', false) ↔ k < k' := by
  rw [Prod.Lex.toLex_lt_toLex]
  simp

theorem entry_lt_entry {k k' : Field} {id id' : RecordId} :
    (Mark.entry k id).rank < (Mark.entry k' id').rank ↔ k < k' := by
  rw [Mark.rank, Mark.rank, Prod.Lex.toLex_lt_toLex]
  simp

theorem ranged_zero_iff {lower upper : Option Field} {s : Shape 0} :
    s.Ranged lower upper ↔ Ascending s.line ∧ Bounded lower upper s.line := by
  show ((Twig.entries s).map _).Pairwise _ ∧ _ ↔
    ((Twig.entries s).map _).Pairwise _ ∧ ∀ m ∈ (Twig.entries s).map _, _
  rw [List.pairwise_map, List.pairwise_map, List.forall_mem_map, List.forall_mem_map]
  simp only [Field.Within, separator_lt_entry, entry_lt_separator, entry_lt_entry]

/-- The entries and separators of children and separators in turn. -/
theorem line_ranges (c : Shape h) (k : Field) (d : Shape h) (rest : List (Field × Shape h)) :
    c.line ++ ((k, d) :: rest).flatMap (fun e => Mark.separator e.1 :: e.2.line) =
      c.line ++ Mark.separator k ::
        (d.line ++ rest.flatMap fun e => .separator e.1 :: e.2.line) := by
  rw [List.flatMap_cons, List.cons_append]

/-- Children that keep to their ranges, with the separators between them. -/
theorem ascending_of_ranges {lower upper : Option Field} {c : Shape h}
    {rest : List (Field × Shape h)}
    (ih : ∀ d ∈ c :: rest.map Prod.snd, ∀ lower upper, d.Ranged lower upper →
      Ascending d.line ∧ Bounded lower upper d.line)
    (hne : ∀ d ∈ c :: rest.map Prod.snd, ∃ e, e ∈ d.entries)
    (hkeys : (rest.map Prod.fst).Pairwise (· < ·))
    (hwithin : ∀ k ∈ rest.map Prod.fst, k.Within lower upper)
    (hr : Fork.Ranges Ranged lower c rest upper) :
    Ascending (c.line ++ rest.flatMap fun e => .separator e.1 :: e.2.line) ∧
      Bounded lower upper (c.line ++ rest.flatMap fun e => .separator e.1 :: e.2.line) := by
  induction rest generalizing lower c with
  | nil =>
    rw [List.flatMap_nil, List.append_nil]
    exact ih c (by simp) _ _ hr
  | cons e rest ihr =>
    obtain ⟨k, d⟩ := e
    obtain ⟨hc, hr⟩ := hr
    rw [List.map_cons, List.pairwise_cons] at hkeys
    obtain ⟨hca, hcb⟩ := ih c (by simp) _ _ hc
    obtain ⟨hta, htb⟩ := ihr (fun x hx => ih x (List.mem_cons_of_mem _ hx))
      (fun x hx => hne x (List.mem_cons_of_mem _ hx)) hkeys.2 (fun k' hk' => by
        refine ⟨fun l hl => ?_, (hwithin k' (List.mem_cons_of_mem _ hk')).2⟩
        cases hl
        exact le_of_lt (hkeys.1 k' hk')) hr
    obtain ⟨⟨k₀, id₀⟩, he⟩ := hne c (by simp)
    have he := hcb _ (mem_entries_iff.1 he)
    have hk := hwithin k List.mem_cons_self
    rw [line_ranges]
    constructor
    · refine List.pairwise_append.2 ⟨hca, List.pairwise_cons.2 ⟨fun m hm => ?_, hta⟩, ?_⟩
      · exact (htb m hm).1 k rfl
      · intro a ha b hb
        have hak := (hcb a ha).2 k rfl
        rcases List.mem_cons.1 hb with rfl | hb
        · exact hak
        · exact lt_trans hak ((htb b hb).1 k rfl)
    · intro m hm
      rcases List.mem_append.1 hm with hm | hm
      · refine ⟨(hcb m hm).1, fun u hu => lt_trans ((hcb m hm).2 k rfl) ?_⟩
        exact separator_lt_separator.2 (hk.2 u hu)
      · rcases List.mem_cons.1 hm with rfl | hm
        · exact ⟨fun l hl => lt_trans (he.1 l hl) (he.2 k rfl),
            fun u hu => separator_lt_separator.2 (hk.2 u hu)⟩
        · exact ⟨fun l hl => lt_trans (lt_trans (he.1 l hl) (he.2 k rfl)) ((htb m hm).1 k rfl),
            (htb m hm).2⟩

theorem ranges_of_ascending {lower upper : Option Field} {c : Shape h}
    {rest : List (Field × Shape h)}
    (ih : ∀ d ∈ c :: rest.map Prod.snd, ∀ lower upper, Ascending d.line →
      Bounded lower upper d.line → d.Ranged lower upper)
    (ha : Ascending (c.line ++ rest.flatMap fun e => .separator e.1 :: e.2.line))
    (hb : Bounded lower upper (c.line ++ rest.flatMap fun e => .separator e.1 :: e.2.line)) :
    Fork.Ranges Ranged lower c rest upper := by
  induction rest generalizing lower c with
  | nil =>
    rw [List.flatMap_nil, List.append_nil] at ha hb
    exact ih c (by simp) _ _ ha hb
  | cons e rest ihr =>
    obtain ⟨k, d⟩ := e
    rw [line_ranges] at ha hb
    obtain ⟨hca, hta, hcross⟩ := List.pairwise_append.1 ha
    obtain ⟨hk, hta⟩ := List.pairwise_cons.1 hta
    refine ⟨ih c (by simp) _ _ hca fun m hm => ?_,
      ihr (fun x hx => ih x (List.mem_cons_of_mem _ hx)) hta fun m hm => ?_⟩
    · refine ⟨(hb m (List.mem_append_left _ hm)).1, fun u hu => ?_⟩
      cases hu
      exact hcross m hm _ List.mem_cons_self
    · refine ⟨fun l hl => ?_, (hb m (List.mem_append_right _ (List.mem_cons_of_mem _ hm))).2⟩
      cases hl
      exact hk m hm

theorem sublist_separators (s : Shape (h + 1)) :
    ((Fork.keys s).map Mark.separator).Sublist s.line := by
  rw [line_succ]
  refine List.Sublist.trans ?_ (List.sublist_append_right _ _)
  show (((Fork.rest s).map Prod.fst).map _).Sublist _
  induction Fork.rest s with
  | nil => exact List.Sublist.slnil
  | cons e rest ih =>
    rw [List.flatMap_cons, List.cons_append]
    exact List.Sublist.cons_cons _ (ih.trans (List.sublist_append_right _ _))

theorem Ascending.keys {s : Shape (h + 1)} (hs : Ascending s.line) :
    (Fork.keys s).Pairwise (· < ·) := by
  have hsub := List.Pairwise.sublist (sublist_separators s) hs
  rw [List.pairwise_map] at hsub
  exact hsub.imp separator_lt_separator.1

/-- Where all other nodes have entries below them, the keys of every node keep to the range that is
left to them exactly if the entries and separators ascend from left to right. -/
theorem ranged_iff {lower upper : Option Field} {s : Shape h} (hf : s.Filled) :
    s.Ranged lower upper ↔ Ascending s.line ∧ Bounded lower upper s.line := by
  induction h generalizing lower upper with
  | zero => exact ranged_zero_iff
  | succ h ih =>
    have hkid : ∀ d ∈ (Fork.first s) :: (Fork.rest s).map Prod.snd, d.Occupied false := hf
    constructor
    · rintro ⟨hkeys, hwithin, hr⟩
      exact ascending_of_ranges (fun d hd lower upper => (ih (hkid d hd).2).1)
        (fun d hd => exists_mem_entries (hkid d hd)) hkeys hwithin hr
    · rintro ⟨ha, hb⟩
      refine ⟨ha.keys, fun k hk => ?_, ranges_of_ascending
        (fun d hd lower upper ha hb => (ih (hkid d hd).2).2 ⟨ha, hb⟩) ha hb⟩
      have hm : Mark.separator k ∈ s.line :=
        (sublist_separators s).subset (List.mem_map_of_mem hk)
      exact ⟨fun l hl => le_of_lt (separator_lt_separator.1 ((hb _ hm).1 l hl)),
        fun u hu => separator_lt_separator.1 ((hb _ hm).2 u hu)⟩

/-- The keys of the entries ascend with the line. -/
theorem Ascending.entries {s : Shape h} (hs : Ascending s.line) :
    (s.entries.map Prod.fst).Pairwise (· < ·) := by
  rw [← filterMap_line, List.pairwise_map, List.pairwise_filterMap]
  refine hs.imp fun {a b} hab e he e' he' => ?_
  cases a with
  | separator k => cases he
  | entry k id =>
    cases b with
    | separator k' => cases he'
    | entry k' id' =>
      cases he
      cases he'
      exact entry_lt_entry.1 hab

/-- In front of an entry there is room for a separator with its key. -/
theorem Ascending.insert_separator {xs ys : List Mark} {e : Field × RecordId} {k : Field}
    {id : RecordId}
    (ha : Ascending (xs ++ .entry e.1 e.2 :: .entry k id :: ys)) :
    Ascending (xs ++ .entry e.1 e.2 :: .separator k :: .entry k id :: ys) := by
  obtain ⟨hxs, hrest, hcross⟩ := List.pairwise_append.1 ha
  obtain ⟨he, hrest⟩ := List.pairwise_cons.1 hrest
  obtain ⟨hk, hys⟩ := List.pairwise_cons.1 hrest
  have hek : (Mark.entry e.1 e.2).rank < toLex (k, false) :=
    entry_lt_separator.2 (entry_lt_entry.1 (he _ List.mem_cons_self))
  have hkk : (toLex (k, false) : Field ×ₗ Bool) < (Mark.entry k id).rank :=
    separator_lt_entry.2 (le_refl k)
  refine List.pairwise_append.2
    ⟨hxs, List.pairwise_cons.2 ⟨?_, List.pairwise_cons.2 ⟨?_, hrest⟩⟩, ?_⟩
  · intro m hm
    rcases List.mem_cons.1 hm with rfl | hm
    · exact hek
    · exact he m hm
  · intro m hm
    rcases List.mem_cons.1 hm with rfl | hm
    · exact hkk
    · exact lt_trans hkk (hk m hm)
  · intro a ha' b hb
    have hae := hcross a ha' _ List.mem_cons_self
    rcases List.mem_cons.1 hb with rfl | hb
    · exact hae
    · rcases List.mem_cons.1 hb with rfl | hb
      · exact lt_trans hae hek
      · exact hcross a ha' b (List.mem_cons_of_mem _ hb)

end Shape
end RecordIndex
