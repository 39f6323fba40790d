import RecordIndex.Node.Codec
import RecordIndex.Store
import RecordIndex.Tree.HeaderPage

/-!
# Trees

A tree is a store whose index file holds the tree's header on page 0 and its nodes on other pages,
and whose record file holds the records that the leaves point to.

* `Tree.fetchNode`, `Tree.putLeaf`, `Tree.putInternal` move nodes between pages and memory. A node
  is only accepted from the page that it names, and never from the header page.
* `Tree.relink` changes the parent link of a node and no other byte of its page.
* `Tree.moveRoot` writes the header page, so that it always names the root.
* `Tree.make` and `Tree.load` make a tree of a store.
-/

namespace RecordIndex

/-- An open tree. After a mutation that failed half-way it waits to be cleared (`needsRepair`). -/
structure Tree where
  store : Store
  keyType : FieldType
  root : PageId
  needsRepair : Bool
deriving Inhabited

/-- An operation on a tree. -/
abbrev TreeAction := Action Tree

namespace Tree

/-- The number of pages, with the header page and those that have been given up. -/
def pageCount (t : Tree) : UInt64 := t.store.index.count

/-- The number of record slots, with those of deleted records. -/
def recordCount (t : Tree) : UInt64 := t.store.records.count

/-- More steps than a walk can take that meets no page twice. -/
def stepLimit (t : Tree) : Nat := t.pageCount.toNat + 1

/-- The tree with the bytes that are on the disk now. -/
def reload (t : Tree) (d : Disk) : Tree := { t with store := t.store.reload d }

/-- The disk with the bytes of the tree. -/
def save (t : Tree) (d : Disk) : Disk := t.store.save d

/-- Runs an action on the store. -/
def onStore {α : Type} : StoreAction α → TreeAction α :=
  Action.within (fun t => t.store) (fun s t => { t with store := s })

/-- Runs an action on the index file. -/
def onIndex {α : Type} (x : SlotAction α) : TreeAction α := onStore (Store.onIndex x)

/-- Runs an action on the record file. -/
def onRecords {α : Type} (x : SlotAction α) : TreeAction α := onStore (Store.onRecords x)

/-- Reads a node. -/
def fetchNode (p : PageId) : TreeAction Node := do
  if p.isHeader then
    Action.fail (.invariantViolation .headerReference)
  else
    let page ← onIndex (PageFile.fetch p)
    let node ← Action.ofExcept (Node.ofPage page)
    if node.page = p then
      return node
    else
      Action.fail (.corrupted (.strayNode p node.page))

/-- Reads a node that must be a leaf. -/
def fetchLeaf (p : PageId) : TreeAction Leaf := do
  let node ← fetchNode p
  Action.ofExcept node.toLeaf

/-- Reads a node that must be internal. -/
def fetchInternal (p : PageId) : TreeAction Internal := do
  let node ← fetchNode p
  Action.ofExcept node.toInternal

/-- Writes a leaf to its page. -/
def putLeaf (l : Leaf) : TreeAction Unit := do
  let page ← Action.ofResult l.toPage
  onIndex (PageFile.put l.page page)

/-- Writes an internal node to its page. -/
def putInternal (n : Internal) : TreeAction Unit := do
  let page ← Action.ofResult n.toPage
  onIndex (PageFile.put n.page page)

/-- Adds a page of zeros. -/
def newPage : TreeAction PageId := onIndex PageFile.grow

/-- Gives a page up. -/
def releasePage (p : PageId) : TreeAction Unit := onIndex (PageFile.erase p)

/-- Changes the parent link on the page of a node. -/
def relink (p : PageId) (parent : Option PageId) : TreeAction Unit := do
  let page ← onIndex (PageFile.fetch p)
  let header ← Action.ofExcept page.header
  onIndex (PageFile.put p (page.setHeader { header with parent }))

/-- Changes the parent links of several nodes, one after the other. -/
def relinkAll (ps : List PageId) (parent : Option PageId) : TreeAction Unit :=
  ps.forM fun p => relink p parent

/-- Makes a page the root, on the header page first. -/
def moveRoot (p : PageId) : TreeAction Unit := do
  let header : HeaderPage := ⟨(← get).keyType, p⟩
  onIndex (PageFile.put .header header.toPage)
  modify fun t => { t with root := p }

/-- Writes the header page and an empty leaf as the root into an index file without pages. -/
def plantRoot : TreeAction Unit := do
  let _ ← newPage
  let root ← newPage
  putLeaf (.empty root none (← get).keyType)
  moveRoot root

/-- Makes a tree in a store that has no pages yet. -/
def make (keyType : FieldType) : StoreAction Tree := do
  let store ← get
  if store.isEmpty then
    match plantRoot ⟨store, keyType, .header, false⟩ with
    | .ok _ t =>
      set t.store
      return t
    | .error e t =>
      set t.store
      throw e
  else
    Action.fail (.invalidOperation (.holdsTree store.config.indexPath))

/-- Opens the tree that a store holds. -/
def load : StoreAction Tree := do
  let store ← get
  if store.isEmpty then
    Action.fail (.invalidOperation (.holdsNoTree store.config.indexPath))
  else
    let page ← Store.onIndex (PageFile.fetch .header)
    let header ← Action.ofExcept (HeaderPage.ofPage page)
    return ⟨← get, header.keyType, header.root, false⟩

/-- Opens the tree that a store holds, or makes one if it holds none. -/
def loadOrMake (keyType : FieldType) : StoreAction Tree := do
  if (← get).isEmpty then
    make keyType
  else
    let t ← load
    if t.keyType = keyType then
      return t
    else
      Action.fail (.invalidOperation (.treeTypes t.keyType keyType))

end Tree
end RecordIndex
