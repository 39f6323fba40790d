import RecordIndex.Node.Growth
import RecordIndex.Tree.Lookup

/-!
# Inserting records

A new key goes into the leaf that a look-up of it ends at. A leaf that becomes too large is split,
and its parent gets the right half as one more child, which may split the parent in turn; above a
split root grows a new one, so that the tree gains its levels at the top.

* `Split` is a node that has been split: the page that kept the left half and the page of the right.
* `Tree.attachSplit` hands the right half to the parent, and goes on upwards.
-/

namespace RecordIndex

/-- A split node: its page, which keeps the left half, its parent link, the page of the right half
and the key between the halves. -/
structure Split where
  left : PageId
  parent : Option PageId
  separator : Field
  right : PageId
deriving DecidableEq, Repr

namespace Tree

/-- Splits a leaf, and writes both halves. -/
def splitLeafPage (l : Leaf) : TreeAction Split := do
  let rightPage ← newPage
  let (left, separator, right) ← Action.ofChecked (l.split rightPage)
  putLeaf left
  putLeaf right
  return ⟨l.page, l.parent, separator, rightPage⟩

/-- Splits an internal node, writes both halves, and links the children of the right one to it. -/
def splitInternalPage (n : Internal) : TreeAction Split := do
  let rightPage ← newPage
  let (left, separator, right) ← Action.ofResult (n.split rightPage)
  putInternal left
  putInternal right
  relinkAll right.children (some rightPage)
  return ⟨n.page, n.parent, separator, rightPage⟩

/-- Puts a new root above the halves of the old one. -/
def addRoot (s : Split) : TreeAction Unit := do
  let root ← newPage
  putInternal (.rootAbove root (← get).keyType s.left s.separator s.right)
  relink s.left (some root)
  relink s.right (some root)
  moveRoot root

/-- The parent with the right half as one more child. The left half must stand where the separator
leads to. -/
def addRightHalf (parent : Internal) (s : Split) : TreeAction Internal := do
  let slot := Keys.firstLarger s.separator parent.keys
  if parent.children[slot]? = some s.left then
    Action.ofChecked (parent.insertChild slot s.separator s.right)
  else
    Action.fail (.invariantViolation (.misplacedChild s.left slot parent.page))

/-- Hands the right half of a split node to the parent, and so on upwards while the parents have to
be split too. Each split but the last takes a full node and leaves none on its pages, so that the
number of pages bounds the steps. -/
def attachSplit : Nat → Split → TreeAction Unit
  | 0, _ => Action.fault .endlessWalk
  | steps + 1, s =>
    match s.parent with
    | none => addRoot s
    | some p => do
      let parent ← addRightHalf (← fetchInternal p) s
      if parent.size ≤ maxChildren then
        putInternal parent
      else
        attachSplit steps (← splitInternalPage parent)

/-- Puts a record into the tree, unless its key is there already. -/
def addRecord (r : Record) : TreeAction Unit := do
  let leaf ← findLeaf r.key
  if (Keys.indexOf? r.key leaf.keys).isSome then
    Action.fail (.alreadyExists r.key)
  else
    let id ← onRecords (RecordFile.add r)
    let leaf ← Action.ofChecked
      (leaf.insertEntry (Keys.firstLarger r.key leaf.keys) r.key id)
    if leaf.size ≤ maxLeafKeys then
      putLeaf leaf
    else
      let steps := (← get).stepLimit
      attachSplit steps (← splitLeafPage leaf)

end Tree
end RecordIndex
