import RecordIndex.Node
import RecordIndex.Positions

/-!
# Nodes that shrink

A node that is left with too few entries is merged with a sibling, or gets an entry from it. Both
change the parent too: it loses the key between the siblings and the right one of them, or that key
is replaced.

* Two leaves are joined end to end; between two internal nodes the key of the parent moves down.
* A leaf takes an entry over as it is, and the new separator is the first key of the right leaf.
* An internal node takes a child over, and the keys move on through the parent.
-/

namespace RecordIndex

namespace Leaf

/-- Takes the entry at position `i` out. -/
def removeEntry (l : Leaf) (i : Nat) : Except Fault (RecordId × Leaf) := do
  let (_, keys) ← Positions.removeAt l.keys i
  let (record, records) ← Positions.removeAt l.records i
  return (record, { l with keys, records })

/-- The entries of two leaves on the page of the left one. -/
def join (left right : Leaf) : Leaf :=
  { left with keys := left.keys ++ right.keys, records := left.records ++ right.records }

/-- Moves the first entry of the right leaf to the end of the left one. Answers both leaves and the
key that now separates them. -/
def shiftLeft (left right : Leaf) : Except Fault (Leaf × Leaf × Field) := do
  let (key, rightKeys) ← Positions.removeAt right.keys 0
  let (record, rightRecords) ← Positions.removeAt right.records 0
  let separator ← Positions.get rightKeys 0
  return ({ left with keys := left.keys ++ [key], records := left.records ++ [record] },
    { right with keys := rightKeys, records := rightRecords }, separator)

/-- Moves the last entry of the left leaf to the front of the right one. Answers both leaves and the
key that now separates them. -/
def shiftRight (left right : Leaf) : Except Error (Leaf × Leaf × Field) :=
  match left.keys.getLast?, left.records.getLast? with
  | some key, some record =>
    .ok ({ left with keys := left.keys.dropLast, records := left.records.dropLast },
      { right with keys := key :: right.keys, records := record :: right.records }, key)
  | _, _ => .error (.invariantViolation (.emptyLeaf left.page))

end Leaf

namespace Internal

/-- The position of the left one of two children that must stand side by side. -/
def separatorIndex (parent : Internal) (left right : PageId) : Except Error Nat := do
  let leftSlot ← parent.indexOfChild left
  let rightSlot ← parent.indexOfChild right
  if rightSlot = leftSlot + 1 then
    return leftSlot
  else
    throw (.invariantViolation (.notAdjacent left leftSlot right rightSlot parent.page))

/-- Takes the key at position `i` out, and the child to the right of it. -/
def removeChild (n : Internal) (i : Nat) : Except Fault (Field × Internal) := do
  let (key, keys) ← Positions.removeAt n.keys i
  let (_, children) ← Positions.removeAt n.children (i + 1)
  return (key, { n with keys, children })

/-- The node with another key at position `i`. -/
def setKey (n : Internal) (i : Nat) (key : Field) : Except Fault Internal := do
  let keys ← Positions.replaceAt n.keys i key
  return { n with keys }

/-- The children of two nodes, with the key between them, on the page of the left one. -/
def join (left : Internal) (separator : Field) (right : Internal) : Internal :=
  { left with
    keys := left.keys ++ separator :: right.keys
    children := left.children ++ right.children }

/-- Moves the first child of the right node to the end of the left one, below the key `separator`
of the parent. Answers the child, both nodes and the key that now separates them. -/
def shiftLeft (left : Internal) (separator : Field) (right : Internal) :
    Except Fault (PageId × Internal × Internal × Field) := do
  let (key, rightKeys) ← Positions.removeAt right.keys 0
  let (child, rightChildren) ← Positions.removeAt right.children 0
  return (child,
    { left with keys := left.keys ++ [separator], children := left.children ++ [child] },
    { right with keys := rightKeys, children := rightChildren }, key)

/-- Moves the last child of the left node to the front of the right one, above the key `separator`
of the parent. Answers the child, both nodes and the key that now separates them. -/
def shiftRight (left : Internal) (separator : Field) (right : Internal) :
    Except Error (PageId × Internal × Internal × Field) :=
  match left.keys.getLast?, left.children.getLast? with
  | some key, some child =>
    .ok (child, { left with keys := left.keys.dropLast, children := left.children.dropLast },
      { right with keys := separator :: right.keys, children := child :: right.children }, key)
  | _, _ => .error (.invariantViolation (.emptyInternal left.page))

end Internal
end RecordIndex
