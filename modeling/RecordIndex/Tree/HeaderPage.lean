import RecordIndex.Node.Header

/-!
# The header page

Page 0 of an index file says what the tree is: after four bytes that mark the file, the signal of
the key type, the page of the root, and the fanout that the tree was built with.
-/

namespace RecordIndex

/-- What page 0 says about the tree. -/
structure HeaderPage where
  keyType : FieldType
  root : PageId
deriving DecidableEq, Repr, Inhabited

namespace HeaderPage

/-- The bytes that mark an index file: the letters PTIX. -/
def magic : Bytes := [0x50, 0x54, 0x49, 0x58]

/-- The bytes of the header. -/
def encode (h : HeaderPage) : Bytes :=
  magic ++ h.keyType.signal :: (BigEndian.encode 8 h.root.number.toNat ++
    BigEndian.encode 4 fanout)

@[simp] theorem length_encode (h : HeaderPage) : h.encode.length = headerPageBytes := by
  simp [encode, magic, headerPageBytes]

/-- The header page. -/
def toPage (h : HeaderPage) : Page := .filled h.encode

/-- Reads the header. The root must not be page 0, and the fanout must be the one of this
library. -/
def decoder : Decoder HeaderPage := do
  let mark ← Decoder.bytes magic.length
  if mark ≠ magic then
    Decoder.fail .noTreeHeader
  else
    let keyType ← FieldType.decoder
    let root ← Decoder.word 8
    let width ← Decoder.word 4
    if root = 0 then
      Decoder.fail .rootIsHeader
    else if width ≠ fanout then
      liftM (Except.error (.invalidOperation (.otherFanout width)) : Except Error HeaderPage)
    else
      return ⟨keyType, ⟨UInt64.ofNat root⟩⟩

/-- Reads the header page. -/
def ofPage (p : Page) : Except Error HeaderPage := decoder.run p.bytes

end HeaderPage
end RecordIndex
