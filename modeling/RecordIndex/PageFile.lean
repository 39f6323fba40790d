import RecordIndex.Page
import RecordIndex.SlotFile

/-!
# The file of pages

The index file is a file of slots that are pages, from the first byte on. A page that is given up is
filled with zeros and never used again.
-/

namespace RecordIndex.PageFile

/-- Pages fill the file from its first byte. -/
def layout : SlotLayout := ⟨UInt64.ofNat pageSize, 0⟩

/-- Opens an index file. -/
def openAt (path : String) : Action Disk SlotFile := do
  let f ← SlotFile.openAt path
  match SlotFile.layOut layout f with
  | .ok _ f => return f
  | .error e _ => throw e

/-- The number of bytes in all pages. -/
def byteCount (f : SlotFile) : UInt64 := f.count * UInt64.ofNat pageSize

/-- Adds a page of zeros. -/
def grow : SlotAction PageId := PageId.mk <$> SlotFile.append Page.zero.bytes

/-- Reads a page. -/
def fetch (p : PageId) : SlotAction Page := do
  let bs ← SlotFile.readExactly p.number pageSize
  Action.ofExcept (Page.ofBytes bs)

/-- Writes a page. -/
def put (p : PageId) (page : Page) : SlotAction Unit := SlotFile.write p.number page.bytes

/-- Gives a page up. -/
def erase (p : PageId) : SlotAction Unit := SlotFile.zero p.number

end RecordIndex.PageFile
