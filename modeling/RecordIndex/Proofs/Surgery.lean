import RecordIndex.Node.Growth
import RecordIndex.Node.Remedy
import RecordIndex.Node.Shrinkage
import RecordIndex.Proofs.Route

/-!
# What the operations on nodes do to shapes

The operations on nodes work by position. On the nodes of a shape they are operations on lists of
entries and on lists of separators with children, and none of them goes wrong.

* `Shape.split_twig`, `Shape.join_twig`, `Shape.shiftLeft_twig` and so on for leaves, and
  `Shape.split_inner` and so on for internal nodes.
* `Route.insertChild_fork`, `Route.removeChild_fork`, `Route.setKey_fork` for the parents.
* `Remedy.exists_choose`: a choice can be made if there is a sibling.
-/

namespace RecordIndex

namespace Remedy

variable {α : Type} {size : α → Nat} {least most : Nat} {node : α} {left right : Option α}

theorem exists_choose (hsome : left.isSome ∨ right.isSome) (hsize : size node + least ≤ most) :
    ∃ remedy, choose size least most node left right = some remedy := by
  rw [← Option.isSome_iff_exists]
  rcases hsome with h | h
  · obtain ⟨a, rfl⟩ := Option.isSome_iff_exists.1 h
    exact isSome_choose_of_left hsize
  · obtain ⟨b, rfl⟩ := Option.isSome_iff_exists.1 h
    exact isSome_choose_of_right hsize

end Remedy

namespace Shape

variable {h : Nat} {keyType : FieldType} {parent : Option PageId} {p q : PageId}
  {xs ys : List (Field × RecordId)} {k : Field} {id : RecordId}

/-- The only node of a tree that is a leaf. -/
def leaf (keyType : FieldType) (parent : Option PageId) (s : Shape 0) : Leaf :=
  Twig.toLeaf keyType parent s

theorem size_leaf (s : Shape 0) : (s.leaf keyType parent).size = s.size := List.length_map ..

theorem size_internal {h : Nat} (s : Shape (h + 1)) : (s.internal keyType parent).size = s.size :=
  List.length_map ..

theorem getKey_twig :
    ((twig p (xs ++ (k, id) :: ys)).leaf keyType parent).keys[xs.length]? = some k := by
  simp [leaf, twig, Twig.toLeaf]

theorem getRecord_twig {i : Nat} (hi : i = xs.length) :
    Positions.get ((twig p (xs ++ (k, id) :: ys)).leaf keyType parent).records i = .ok id := by
  simp only [leaf, twig, Twig.toLeaf, List.map_append, List.map_cons]
  exact Positions.get_append (by simpa using hi)

theorem insertEntry_twig {i : Nat} (hi : i = xs.length) :
    ((twig p (xs ++ ys)).leaf keyType parent).insertEntry i k id =
      .ok ((twig p (xs ++ (k, id) :: ys)).leaf keyType parent) := by
  simp only [leaf, twig, Twig.toLeaf, Leaf.insertEntry, List.map_append, List.map_cons]
  rw [Positions.insertAt_append (by simpa using hi), Positions.insertAt_append (by simpa using hi)]
  rfl

theorem split_twig (hlen : xs.length = Leaf.splitPosition) :
    ((twig p (xs ++ (k, id) :: ys)).leaf keyType parent).split q =
      .ok ((twig p xs).leaf keyType parent, k, (twig q ((k, id) :: ys)).leaf keyType parent) := by
  simp only [leaf, twig, Twig.toLeaf, Leaf.split, List.map_append, List.map_cons]
  rw [Positions.splitAt_append (by simpa using hlen.symm),
    Positions.splitAt_append (by simpa using hlen.symm)]
  rfl

theorem removeEntry_twig {i : Nat} (hi : i = xs.length) :
    ((twig p (xs ++ (k, id) :: ys)).leaf keyType parent).removeEntry i =
      .ok (id, (twig p (xs ++ ys)).leaf keyType parent) := by
  simp only [leaf, twig, Twig.toLeaf, Leaf.removeEntry, List.map_append, List.map_cons]
  rw [Positions.removeAt_append (by simpa using hi), Positions.removeAt_append (by simpa using hi)]
  rfl

theorem join_twig : ((twig p xs).leaf keyType parent).join ((twig q ys).leaf keyType parent) =
    (twig p (xs ++ ys)).leaf keyType parent := by
  simp [leaf, twig, Twig.toLeaf, Leaf.join]

theorem shiftLeft_twig {e e' : Field × RecordId} :
    ((twig p xs).leaf keyType parent).shiftLeft ((twig q (e :: e' :: ys)).leaf keyType parent) =
      .ok ((twig p (xs ++ [e])).leaf keyType parent, (twig q (e' :: ys)).leaf keyType parent,
        e'.1) := by
  simp [leaf, twig, Twig.toLeaf, Leaf.shiftLeft, Positions.removeAt, Positions.get]
  rfl

theorem shiftRight_twig {e : Field × RecordId} :
    ((twig p (xs ++ [e])).leaf keyType parent).shiftRight ((twig q ys).leaf keyType parent) =
      .ok ((twig p xs).leaf keyType parent, (twig q (e :: ys)).leaf keyType parent, e.1) := by
  simp [leaf, twig, Twig.toLeaf, Leaf.shiftRight]

section Inner

variable {first c d : Shape h} {left right : List (Field × Shape h)}

theorem internal_inner : (inner p first left).internal keyType parent =
    ⟨p, parent, keyType, left.map Prod.fst, first.page :: left.map fun e => e.2.page⟩ := by
  simp [internal, inner, Fork.keys, Fork.kids, Function.comp_def]

theorem split_inner (hlen : left.length + 1 = Internal.splitPosition) :
    ((inner p first (left ++ (k, c) :: right)).internal keyType parent).split q =
      .ok ((inner p first left).internal keyType parent, k,
        (inner q c right).internal keyType parent) := by
  have hkeys : left.map Prod.fst ++ k :: right.map Prod.fst =
      (left.map Prod.fst ++ [k]) ++ right.map Prod.fst := by simp
  have hkids : first.page :: (left.map (fun e => e.2.page) ++ c.page :: right.map fun e =>
    e.2.page) =
      (first.page :: left.map fun e => e.2.page) ++ c.page :: right.map fun e => e.2.page := rfl
  simp only [internal_inner, Internal.split, List.map_append, List.map_cons]
  rw [hkeys, Positions.splitAt_append (by simpa using hlen.symm), hkids,
    Positions.splitAt_append (by simpa using hlen.symm)]
  simp

theorem join_inner :
    ((inner p first left).internal keyType parent).join k
        ((inner q c right).internal keyType parent) =
      (inner p first (left ++ (k, c) :: right)).internal keyType parent := by
  simp [internal_inner, Internal.join]

theorem shiftLeft_inner {k' : Field} :
    ((inner p first left).internal keyType parent).shiftLeft k
        ((inner q c ((k', d) :: right)).internal keyType parent) =
      .ok (c.page, (inner p first (left ++ [(k, c)])).internal keyType parent,
        (inner q d right).internal keyType parent, k') := by
  simp [internal_inner, Internal.shiftLeft, Positions.removeAt]
  rfl

theorem shiftRight_inner {k' : Field} :
    ((inner p first (left ++ [(k', c)])).internal keyType parent).shiftRight k
        ((inner q d right).internal keyType parent) =
      .ok (c.page, (inner p first left).internal keyType parent,
        (inner q c ((k, d) :: right)).internal keyType parent, k') := by
  have hkids : first.page :: (left.map (fun e => e.2.page) ++ [c.page]) =
      (first.page :: left.map fun e => e.2.page) ++ [c.page] := rfl
  simp only [internal_inner, Internal.shiftRight, List.map_append, List.map_cons, List.map_nil,
    hkids,
    List.getLast?_concat, List.dropLast_concat]

end Inner

end Shape

namespace Route

variable {h : Nat} {keyType : FieldType} {parent : Option PageId} {page : PageId}
  {left : List (Shape h × Field)} {s a b : Shape h} {right : List (Field × Shape h)} {k k' : Field}

theorem getChild_fork :
    ((fork page left s right).internal keyType parent).children[left.length]? = some s.page := by
  rw [internal_fork]
  simp

theorem leftSibling_fork :
    (if left.length = 0 then none
      else ((fork page left s right).internal keyType parent).children[left.length - 1]?) =
      left.head?.map fun e => e.1.page := by
  rw [internal_fork]
  cases left with
  | nil => rfl
  | cons e left => simp

theorem rightSibling_fork :
    ((fork page left s right).internal keyType parent).children[left.length + 1]? =
      right.head?.map fun e => e.2.page := by
  rw [internal_fork, List.getElem?_append_right (by simp)]
  cases right with
  | nil => simp
  | cons e right => simp

theorem insertChild_fork : ((fork page left s right).internal keyType parent).insertChild
    left.length
    k b.page = .ok ((fork page left s ((k, b) :: right)).internal keyType parent) := by
  have hkids : (left.map fun e => e.1.page).reverse ++ s.page :: (right.map fun e => e.2.page) =
      ((left.map fun e => e.1.page).reverse ++ [s.page]) ++ right.map fun e => e.2.page := by simp
  rw [internal_fork, internal_fork]
  simp only [Internal.insertChild, List.map_cons]
  rw [Positions.insertAt_append (by simp), hkids, Positions.insertAt_append (by simp)]
  simp only [List.append_assoc, List.singleton_append]
  rfl

theorem removeChild_fork :
    ((fork page left a ((k, b) :: right)).internal keyType parent).removeChild left.length =
      .ok (k, (fork page left a right).internal keyType parent) := by
  have hkids : (left.map fun e => e.1.page).reverse ++ a.page :: b.page ::
        (right.map fun e => e.2.page) =
      ((left.map fun e => e.1.page).reverse ++ [a.page]) ++ b.page ::
        right.map fun e => e.2.page := by simp
  rw [internal_fork, internal_fork]
  simp only [Internal.removeChild, List.map_cons]
  rw [Positions.removeAt_append (by simp), hkids, Positions.removeAt_append (by simp)]
  simp only [List.append_assoc, List.singleton_append]
  rfl

theorem getKey_fork : Positions.get
    ((fork page left a ((k, b) :: right)).internal keyType parent).keys left.length = .ok k := by
  rw [internal_fork]
  exact Positions.get_append (by simp)

theorem setKey_fork :
    ((fork page left a ((k, b) :: right)).internal keyType parent).setKey left.length k' =
      .ok ((fork page left a ((k', b) :: right)).internal keyType parent) := by
  rw [internal_fork, internal_fork]
  simp only [Internal.setKey, List.map_cons]
  rw [Positions.replaceAt_append (by simp)]
  rfl

/-- A child is found where it is, if no other child has its page. -/
theorem indexOfChild_fork (hs : s.page ∉ left.map fun e => e.1.page) :
    ((fork page left s right).internal keyType parent).indexOfChild s.page = .ok left.length := by
  have hidx : ((left.map fun e => e.1.page).reverse ++ s.page :: right.map fun e => e.2.page).idxOf?
      s.page = some left.length := by
    refine List.idxOf?_eq_some_iff.2 ⟨by simp, by simp, fun j hj => ?_⟩
    rw [List.getElem_append_left (by simpa using hj)]
    intro he
    refine hs (List.mem_reverse.1 ?_)
    rw [← he]
    exact List.getElem_mem _
  simp only [internal_fork, Internal.indexOfChild, hidx]

/-- Two children that stand side by side. -/
theorem separatorIndex_fork (ha : a.page ∉ left.map fun e => e.1.page)
    (hb : b.page ∉ left.map fun e => e.1.page) (hab : b.page ≠ a.page) :
    ((fork page left a ((k, b) :: right)).internal keyType parent).separatorIndex a.page b.page =
      .ok left.length := by
  have hright : ((fork page ((a, k) :: left) b right).internal keyType parent).indexOfChild b.page =
      .ok ((a, k) :: left).length :=
    indexOfChild_fork (List.not_mem_cons_of_ne_of_not_mem hab hb)
  have hright : ((fork page left a ((k, b) :: right)).internal keyType parent).indexOfChild b.page =
      .ok (left.length + 1) := hright
  rw [Internal.separatorIndex, indexOfChild_fork ha, hright]
  show (if left.length + 1 = left.length + 1 then _ else _) = _
  rw [if_pos rfl]
  rfl

end Route

end RecordIndex
