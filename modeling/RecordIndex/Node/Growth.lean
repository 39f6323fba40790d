import RecordIndex.Keys
import RecordIndex.Node
import RecordIndex.Positions

/-!
# Nodes that grow

A new entry goes to its place among the keys; a node with too many entries is split in two.

* The right half of a split leaf starts with the separator, which stays in the leaf too.
* The key between the halves of a split internal node moves up and stays in neither.
-/

namespace RecordIndex

namespace Leaf

/-- Entries that the left half of a split leaf keeps. -/
def splitPosition : Nat := (fanout + 1 + 1) / 2

/-- The leaf with an entry in front of position `i`. -/
def insertEntry (l : Leaf) (i : Nat) (key : Field) (record : RecordId) : Except Fault Leaf := do
  let keys ← Positions.insertAt l.keys i key
  let records ← Positions.insertAt l.records i record
  return { l with keys, records }

/-- The halves of a leaf, the right one on a page of its own, and the key between them. -/
def split (l : Leaf) (rightPage : PageId) : Except Fault (Leaf × Field × Leaf) := do
  let (leftKeys, rightKeys) ← Positions.splitAt l.keys splitPosition
  let (leftRecords, rightRecords) ← Positions.splitAt l.records splitPosition
  let separator ← Positions.get rightKeys 0
  return ({ l with keys := leftKeys, records := leftRecords }, separator,
    { l with page := rightPage, keys := rightKeys, records := rightRecords })

end Leaf

namespace Internal

/-- Children that the left half of a split internal node keeps. -/
def splitPosition : Nat := fanout / 2 + 1

/-- The node with a key at position `i` and a child to the right of it. -/
def insertChild (n : Internal) (i : Nat) (key : Field) (child : PageId) :
    Except Fault Internal := do
  let keys ← Positions.insertAt n.keys i key
  let children ← Positions.insertAt n.children (i + 1) child
  return { n with keys, children }

/-- The halves of an internal node, the right one on a page of its own, and the key between them. -/
def split (n : Internal) (rightPage : PageId) : Except Failure (Internal × Field × Internal) :=
  match Positions.splitAt n.keys splitPosition, Positions.splitAt n.children splitPosition with
  | .ok (leftKeys, rightKeys), children =>
    match leftKeys.getLast?, children with
    | none, _ => .error (.error (.invariantViolation (.splitWithoutKeys n.page)))
    | some promoted, .ok (leftChildren, rightChildren) =>
      .ok ({ n with keys := leftKeys.dropLast, children := leftChildren }, promoted,
        { n with page := rightPage, keys := rightKeys, children := rightChildren })
    | some _, .error f => .error (.fault f)
  | .error f, _ => .error (.fault f)

/-- The root above two nodes. -/
def rootAbove (page : PageId) (keyType : FieldType) (left : PageId) (separator : Field)
    (right : PageId) : Internal :=
  ⟨page, none, keyType, [separator], [left, right]⟩

end Internal
end RecordIndex
