import RecordIndex.Node.Remedy
import RecordIndex.Node.Shrinkage
import RecordIndex.Tree.Lookup

/-!
# Deleting records

A key is taken out of its leaf and the slot of its record is filled with zeros. A leaf that is left
with too few entries is merged with a sibling or borrows an entry (`Remedy`). A merge takes a child
from the parent, so that the parent may have to be mended too, and so on upwards; a root that is
left with one child gives way to it.

* `Tree.siblings` reads the neighbours of a node.
* `Tree.mendLeaf` mends a leaf that has lost an entry, and `Tree.mendInternal` an internal node that
  has lost a child. Either answers when the nodes concerned are on their pages.
-/

namespace RecordIndex.Tree

/-- Reads the left and the right sibling of the child at a position, the right one first. -/
def siblings {α : Type} (readSibling : PageId → TreeAction α) (parent : Internal) (slot : Nat) :
    TreeAction (Option α × Option α) := do
  let right ← parent.children[slot + 1]?.mapM readSibling
  let left ← (if slot = 0 then none else parent.children[slot - 1]?).mapM readSibling
  return (left, right)

/-- Moves all entries of the right leaf to the left one, and gives the page of the right one up.
Answers the parent without the right leaf, not written yet. -/
def mergeLeafPages (parent : Internal) (left right : Leaf) : TreeAction Internal := do
  let slot ← Action.ofExcept (parent.separatorIndex left.page right.page)
  let (_, parent) ← Action.ofChecked (parent.removeChild slot)
  putLeaf (left.join right)
  releasePage right.page
  return parent

/-- Moves the first entry of the right sibling to the end of a leaf. -/
def takeFromRightLeaf (parent : Internal) (leaf right : Leaf) : TreeAction Unit := do
  let slot ← Action.ofExcept (parent.separatorIndex leaf.page right.page)
  let (leaf, right, separator) ← Action.ofChecked (leaf.shiftLeft right)
  let parent ← Action.ofChecked (parent.setKey slot separator)
  putLeaf leaf
  putLeaf right
  putInternal parent

/-- Moves the last entry of the left sibling to the front of a leaf. -/
def takeFromLeftLeaf (parent : Internal) (left leaf : Leaf) : TreeAction Unit := do
  let slot ← Action.ofExcept (parent.separatorIndex left.page leaf.page)
  let (left, leaf, separator) ← Action.ofExcept (left.shiftRight leaf)
  let parent ← Action.ofChecked (parent.setKey slot separator)
  putLeaf left
  putLeaf leaf
  putInternal parent

/-- Moves all children of the right node to the left one, with the key of the parent between them,
and gives the page of the right one up. Answers the parent without the right node, not written
yet. -/
def mergeInternalPages (parent left right : Internal) : TreeAction Internal := do
  let slot ← Action.ofExcept (parent.separatorIndex left.page right.page)
  let (separator, parent) ← Action.ofChecked (parent.removeChild slot)
  relinkAll right.children (some left.page)
  putInternal (left.join separator right)
  releasePage right.page
  return parent

/-- Moves the first child of the right sibling to the end of a node. -/
def takeFromRightInternal (parent node right : Internal) : TreeAction Unit := do
  let slot ← Action.ofExcept (parent.separatorIndex node.page right.page)
  let separator ← Action.ofChecked (Positions.get parent.keys slot)
  let (child, node, right, separator) ← Action.ofChecked (node.shiftLeft separator right)
  let parent ← Action.ofChecked (parent.setKey slot separator)
  relink child (some node.page)
  putInternal node
  putInternal right
  putInternal parent

/-- Moves the last child of the left sibling to the front of a node. -/
def takeFromLeftInternal (parent left node : Internal) : TreeAction Unit := do
  let slot ← Action.ofExcept (parent.separatorIndex left.page node.page)
  let separator ← Action.ofChecked (Positions.get parent.keys slot)
  let (child, left, node, separator) ← Action.ofExcept (left.shiftRight separator node)
  let parent ← Action.ofChecked (parent.setKey slot separator)
  relink child (some node.page)
  putInternal left
  putInternal node
  putInternal parent

/-- Writes a root that has lost a child. Its only child takes its place if no other is left. -/
def lowerRoot (root : Internal) : TreeAction Unit := do
  if 1 < root.size then
    putInternal root
  else
    let child ← Action.ofChecked (Positions.get root.children 0)
    relink child none
    moveRoot child
    releasePage root.page

/-- Writes an internal node that has lost a child, or mends it, and then its parent if that has
lost one too. Each step but the last gives a page up, so that the number of pages bounds the
steps. -/
def mendInternal : Nat → Internal → TreeAction Unit
  | 0, _ => Action.fault .endlessWalk
  | steps + 1, node =>
    match node.parent with
    | none => lowerRoot node
    | some p =>
      if minChildren ≤ node.size then
        putInternal node
      else do
        let parent ← fetchInternal p
        let slot ← Action.ofExcept (parent.indexOfChild node.page)
        let (left, right) ← siblings fetchInternal parent slot
        match Remedy.choose Internal.size minChildren maxChildren node left right with
        | some (.mergeRight right) => mendInternal steps (← mergeInternalPages parent node right)
        | some (.mergeLeft left) => mendInternal steps (← mergeInternalPages parent left node)
        | some (.borrowRight right) => takeFromRightInternal parent node right
        | some (.borrowLeft left) => takeFromLeftInternal parent left node
        | none => Action.fail (.invariantViolation (.internalWithoutSibling node.page))

/-- Mends a leaf with too few entries that is a child of page `p`. -/
def mendLeaf (steps : Nat) (p : PageId) (leaf : Leaf) : TreeAction Unit := do
  let parent ← fetchInternal p
  let slot ← Action.ofExcept (parent.indexOfChild leaf.page)
  let (left, right) ← siblings fetchLeaf parent slot
  match Remedy.choose Leaf.size minLeafKeys maxLeafKeys leaf left right with
  | some (.mergeRight right) => mendInternal steps (← mergeLeafPages parent leaf right)
  | some (.mergeLeft left) => mendInternal steps (← mergeLeafPages parent left leaf)
  | some (.borrowRight right) => takeFromRightLeaf parent leaf right
  | some (.borrowLeft left) => takeFromLeftLeaf parent left leaf
  | none => Action.fail (.invariantViolation (.leafWithoutSibling leaf.page))

/-- Takes a key and its record out of the tree. -/
def removeKey (key : Field) : TreeAction Unit := do
  let leaf ← findLeaf key
  match Keys.indexOf? key leaf.keys with
  | none => Action.fail (.notFound key)
  | some i =>
    let (id, leaf) ← Action.ofChecked (leaf.removeEntry i)
    onRecords (RecordFile.erase id)
    match leaf.parent with
    | none => putLeaf leaf
    | some p =>
      if minLeafKeys ≤ leaf.size then
        putLeaf leaf
      else
        mendLeaf (← get).stepLimit p leaf

end RecordIndex.Tree
