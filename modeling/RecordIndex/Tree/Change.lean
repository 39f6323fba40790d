import RecordIndex.Tree.Deletion
import RecordIndex.Tree.Insertion

/-!
# Changing a tree

The operations that change a tree. A request that can be refused is refused before anything is
written; a change that fails half-way leaves the tree in need of repair, and until `Tree.clear` has
repaired it no other change is let in.

* `Tree.insert` adds a record, `Tree.update` replaces one and `Tree.delete` removes one.
* `Tree.clear` starts again with an empty tree.
* `Tree.guarded` is what marks a tree that a failure has left half-changed.
-/

namespace RecordIndex.Tree

/-- Whether a failed change has to be taken for a half-made one: slots have been written, or the
file system failed. -/
def leftHalfChanged (before after : Tree) (e : Error) : Bool :=
  e.isIo || after.store.counters.writes != before.store.counters.writes

/-- Runs a change, and marks the tree if it fails half-way. -/
def guarded (change : TreeAction Unit) : TreeAction Unit := fun t =>
  match change t with
  | .error (.error e) s =>
    .error (.error e) { s with needsRepair := s.needsRepair || leftHalfChanged t s e }
  | outcome => outcome

/-- Refuses to change a tree that waits to be repaired. -/
def requireIntact : TreeAction Unit := do
  if (← get).needsRepair then
    Action.fail .needsRepair

/-- Refuses a record that the tree cannot hold: its key is of another type, one of its fields has no
encoded form, or its size is not that of the other records. -/
def requireStorable (r : Record) : TreeAction Unit := do
  requireKeyType r.key
  Action.ofExcept r.validate
  onRecords (RecordFile.requireSize r.size)

/-- Replaces the record of a key that is in the tree. -/
def replaceRecord (r : Record) : TreeAction Unit := do
  let leaf ← findLeaf r.key
  match Keys.indexOf? r.key leaf.keys with
  | none => Action.fail (.notFound r.key)
  | some i =>
    let id ← Action.ofChecked (Positions.get leaf.records i)
    onRecords (RecordFile.replace id r)

/-- Adds a record. Its key must not be in the tree. -/
def insert (r : Record) : TreeAction Unit := do
  requireIntact
  requireStorable r
  guarded (addRecord r)

/-- Replaces the record of a key. -/
def update (r : Record) : TreeAction Unit := do
  requireIntact
  requireStorable r
  guarded (replaceRecord r)

/-- Removes a key and its record. -/
def delete (key : Field) : TreeAction Unit := do
  requireIntact
  requireKeyType key
  guarded (removeKey key)

/-- Removes all keys and records. The key type stays. -/
def clear : TreeAction Unit := do
  onStore Store.clear
  modify fun t => { t with needsRepair := false }
  plantRoot

end RecordIndex.Tree
