/-!
# Page and record ids

A page id is the number of a page in the index file, a record id the number of a slot in the record
file. Page 0 is the header page and holds no node.
-/

namespace RecordIndex

/-- The number of a page in the index file. -/
structure PageId where
  number : UInt64
deriving DecidableEq, Repr, Inhabited

/-- The number of a slot in the record file. -/
structure RecordId where
  number : UInt64
deriving DecidableEq, Repr, Inhabited

namespace PageId

/-- The page that holds the tree header. -/
def header : PageId := ⟨0⟩

/-- Whether this is the header page. -/
def isHeader (p : PageId) : Bool := p == header

instance : ToString PageId := ⟨fun p => s!"Page({p.number.toNat})"⟩

instance : Ord PageId := ⟨fun p q => compare p.number q.number⟩

/-- A parent link as messages show it. -/
def parentText : Option PageId → String
  | none => "None"
  | some p => s!"Some(PageId({p.number.toNat}))"

end PageId

instance : ToString RecordId := ⟨fun r => s!"Record({r.number.toNat})"⟩

end RecordIndex
