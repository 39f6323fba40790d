import RecordIndex.Keys
import RecordIndex.Positions
import RecordIndex.Tree

/-!
# Looking keys up

A look-up descends from the root to the one leaf that can hold the key, and reads one page on each
level. It writes nothing.

* `Tree.descend` follows child pointers to a leaf. The number of its steps is bounded by the number
  of pages, which is enough for every walk that meets no page twice.
* `Tree.findLeaf` descends to the leaf for a key, and `Tree.height` along the first children.
* `Tree.contains` and `Tree.lookup` look a key up, the latter with its record.
-/

namespace RecordIndex.Tree

/-- Follows child pointers from a page to a leaf. `next` says at which position to go on. Answers
the leaf and the number of internal nodes above it. -/
def descend (next : Internal → Nat) : Nat → PageId → TreeAction (Leaf × Nat)
  | 0, _ => Action.fault .endlessWalk
  | steps + 1, p => do
    match ← fetchNode p with
    | .leaf l => return (l, 0)
    | .internal n =>
      let child ← Action.ofChecked (Positions.get n.children (next n))
      let (l, above) ← descend next steps child
      return (l, above + 1)

/-- Follows child pointers from the root to a leaf. -/
def descendFromRoot (next : Internal → Nat) : TreeAction (Leaf × Nat) := do
  let t ← get
  descend next t.stepLimit t.root

/-- The leaf that holds a key if any does. -/
def findLeaf (key : Field) : TreeAction Leaf :=
  Prod.fst <$> descendFromRoot fun n => Keys.firstLarger key n.keys

/-- The number of levels, with that of the root. -/
def height : TreeAction Nat := do
  let (_, above) ← descendFromRoot fun _ => 0
  return above + 1

/-- Whether the tree holds no records. -/
def isEmpty : TreeAction Bool := do
  match ← fetchNode (← get).root with
  | .leaf l => return l.keys.isEmpty
  | .internal _ => return false

/-- Refuses a key of another type than the tree's. -/
def requireKeyType (key : Field) : TreeAction Unit := do
  let keyType := (← get).keyType
  if key.type = keyType then
    pure ()
  else
    Action.fail (.invalidOperation (.treeKeyType key keyType))

/-- Whether a key is in the tree. -/
def contains (key : Field) : TreeAction Bool := do
  requireKeyType key
  let leaf ← findLeaf key
  return (Keys.indexOf? key leaf.keys).isSome

/-- The record of a key, if the key is in the tree. -/
def lookup (key : Field) : TreeAction (Option Record) := do
  requireKeyType key
  let leaf ← findLeaf key
  match Keys.indexOf? key leaf.keys with
  | none => return none
  | some i =>
    let id ← Action.ofChecked (Positions.get leaf.records i)
    let record ← onRecords (RecordFile.fetch id)
    if record.key = key then
      return some record
    else
      Action.fail (.corrupted (.strayRecord id leaf.page record.key key))

end RecordIndex.Tree
