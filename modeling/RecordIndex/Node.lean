import RecordIndex.Node.Header

/-!
# Nodes

A leaf lists keys with the records that they belong to. An internal node has one child more than
keys: the keys below its child `i` are not below key `i - 1` and are below key `i`.

The two lists of a node stand side by side and nothing forces their lengths to agree; a node whose
counts do not agree has no page (`Node.toPage`).
-/

namespace RecordIndex

/-- A node that holds the places of records. -/
structure Leaf where
  page : PageId
  parent : Option PageId
  keyType : FieldType
  keys : List Field
  records : List RecordId
deriving DecidableEq, Repr, Inhabited

/-- A node that holds the pages of other nodes. -/
structure Internal where
  page : PageId
  parent : Option PageId
  keyType : FieldType
  keys : List Field
  children : List PageId
deriving DecidableEq, Repr, Inhabited

/-- A node of the tree. -/
inductive Node where
  | leaf (node : Leaf)
  | internal (node : Internal)
deriving DecidableEq, Repr

namespace Leaf

/-- A leaf without entries. -/
def empty (page : PageId) (parent : Option PageId) (keyType : FieldType) : Leaf :=
  ⟨page, parent, keyType, [], []⟩

/-- The number of keys. -/
def size (l : Leaf) : Nat := l.keys.length

/-- The header of the leaf's page. -/
def header (l : Leaf) : NodeHeader := ⟨.leaf, l.keyType, l.parent, l.page⟩

end Leaf

namespace Internal

/-- The number of children. -/
def size (n : Internal) : Nat := n.children.length

/-- The header of the node's page. -/
def header (n : Internal) : NodeHeader := ⟨.internal, n.keyType, n.parent, n.page⟩

/-- The position of a child. -/
def indexOfChild (n : Internal) (child : PageId) : Except Error Nat :=
  match n.children.idxOf? child with
  | some i => .ok i
  | none => .error (.invariantViolation (.notAChild child n.page))

end Internal

namespace Node

/-- The header of the node's page. -/
def header : Node → NodeHeader
  | leaf l => l.header
  | internal n => n.header

/-- The page of the node. -/
def page (n : Node) : PageId := n.header.page

/-- The parent link of the node. -/
def parent (n : Node) : Option PageId := n.header.parent

/-- The type of the node's keys. -/
def keyType (n : Node) : FieldType := n.header.keyType

/-- The keys of the node. -/
def keys : Node → List Field
  | leaf l => l.keys
  | internal n => n.keys

/-- The node as a leaf. -/
def toLeaf : Node → Except Error Leaf
  | leaf l => .ok l
  | internal n => .error (.invalidOperation (.expectedLeaf n.page))

/-- The node as an internal node. -/
def toInternal : Node → Except Error Internal
  | internal n => .ok n
  | leaf l => .error (.invalidOperation (.expectedInternal l.page))

/-- The node with another parent link. -/
def withParent (parent : Option PageId) : Node → Node
  | leaf l => leaf { l with parent }
  | internal n => internal { n with parent }

end Node
end RecordIndex
