import RecordIndex.Tree.Lookup

/-!
# Checking a tree

The check walks the whole tree, level by level, and reports the first broken rule: parent links and
key types, the order of the keys and the range that the separators above leave to them, how full the
nodes are, that all leaves are at one depth, and that each leaf entry leads to a record with its
key.

* `Place` is what the way to a node says about it, and `Place.check` compares the node with it.
* `Tree.audit` walks the tree and answers its measures (`TreeMeasures`).

Two places of one tree never leave room for the same node, so that the walk takes each page at most
once and the number of pages bounds its steps.
-/

namespace RecordIndex

/-- The measures of a tree. -/
structure TreeMeasures where
  height : Nat
  nodes : Nat
  leaves : Nat
  records : Nat
deriving DecidableEq, Repr

namespace TreeMeasures

/-- Nothing counted yet. -/
def zero : TreeMeasures := ⟨0, 0, 0, 0⟩

/-- The measures in words. -/
def text (s : TreeMeasures) : String :=
  s!"height {s.height}, {s.nodes} nodes ({s.leaves} leaves), {s.records} records"

end TreeMeasures

/-- A place in the tree: the page that a node is expected on, the parent that it must link to, its
level, and the range that its keys must lie in. Without a parent it is the place of the root. -/
structure Place where
  page : PageId
  parent : Option PageId
  depth : Nat
  lower : Option Field
  upper : Option Field
deriving DecidableEq, Repr

namespace Place

/-- The place of the root. -/
def root (page : PageId) : Place := ⟨page, none, 1, none, none⟩

/-- The places of the children of a node, from left to right. Each range ends where the next one
begins, at a key of the node. -/
def children (p : Place) (n : Internal) : List Place :=
  let bounds := (p.lower :: n.keys.map some).zip (n.keys.map some ++ [p.upper])
  (n.children.zip bounds).map fun (child, lower, upper) =>
    ⟨child, some n.page, p.depth + 1, lower, upper⟩

end Place

/-- Reports a rule that is broken. -/
def ensure (rule : Prop) [Decidable rule] (broken : Violation) : Except Error Unit :=
  if rule then .ok () else .error (.invariantViolation broken)

/-- The keys are in strictly ascending order. -/
def checkOrder (page : PageId) (keys : List Field) : Except Error Unit :=
  match Keys.disorder? keys with
  | some (a, b) => .error (.invariantViolation (.keyOrder page a b))
  | none => .ok ()

/-- The first key is not below the lower end of the range. -/
def checkLower (page : PageId) (lower : Option Field) (keys : List Field) : Except Error Unit :=
  match lower, keys.head? with
  | some separator, some first =>
    ensure (¬ first < separator) (.belowSeparator page first separator)
  | _, _ => .ok ()

/-- The last key is below the upper end of the range. -/
def checkUpper (page : PageId) (upper : Option Field) (keys : List Field) : Except Error Unit :=
  match upper, keys.getLast? with
  | some separator, some last =>
    ensure (last < separator) (.notBelowSeparator page last separator)
  | _, _ => .ok ()

/-- The node is neither too full nor too empty, and a root may be emptier than other nodes. -/
def checkOccupancy (isRoot : Bool) : Node → Except Error Unit
  | .leaf l =>
    ensure ((if isRoot then 0 else minLeafKeys) ≤ l.size ∧ l.size ≤ maxLeafKeys)
      (.leafOccupancy l.page l.size)
  | .internal n =>
    ensure ((if isRoot then minRootChildren else minChildren) ≤ n.size ∧ n.size ≤ maxChildren)
      (.childOccupancy n.page n.size)

/-- The node fits its place in a tree with keys of the given type. -/
def Place.check (place : Place) (keyType : FieldType) (node : Node) : Except Error Unit := do
  ensure (node.parent = place.parent) (.parentLink node.page node.parent place.parent)
  ensure (node.keyType = keyType) (.keyType node.page node.keyType keyType)
  checkOrder node.page node.keys
  checkLower node.page place.lower node.keys
  checkUpper node.page place.upper node.keys
  checkOccupancy place.parent.isNone node

namespace Tree

/-- Each entry of the leaf leads to a record with the key of the entry. -/
def auditEntries (leaf : Leaf) : TreeAction Unit :=
  (leaf.keys.zip leaf.records).forM fun (key, id) => do
    let record ← onRecords (RecordFile.fetch id)
    if record.key = key then
      pure ()
    else
      Action.fail (.invariantViolation (.entryKey leaf.page key id record.key))

/-- Checks the node at a place. Answers the measures with this node, and the places below it. -/
def auditPlace (place : Place) (sum : TreeMeasures) : TreeAction (TreeMeasures × List Place) := do
  let node ← fetchNode place.page
  Action.ofExcept (place.check (← get).keyType node)
  let sum := { sum with nodes := sum.nodes + 1 }
  match node with
  | .leaf leaf =>
    Action.ofExcept (ensure (sum.leaves = 0 ∨ place.depth = sum.height)
      (.leafDepth leaf.page place.depth sum.height))
    auditEntries leaf
    return ({ sum with
      height := place.depth
      leaves := sum.leaves + 1
      records := sum.records + leaf.size }, [])
  | .internal n => return (sum, place.children n)

/-- Checks the nodes at all places and below, in the order of the queue. -/
def auditPlaces : Nat → List Place → TreeMeasures → TreeAction TreeMeasures
  | _, [], sum => return sum
  | 0, _ :: _, _ => Action.fault .endlessWalk
  | steps + 1, place :: queue, sum => do
    let (sum, below) ← auditPlace place sum
    auditPlaces steps (queue ++ below) sum

/-- Checks the tree, and answers its measures if no rule is broken. -/
def audit : TreeAction TreeMeasures := do
  let t ← get
  auditPlaces t.stepLimit [.root t.root] .zero

end Tree
end RecordIndex
