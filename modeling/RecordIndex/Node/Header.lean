import RecordIndex.Field.Codec
import RecordIndex.Page

/-!
# Node headers

The first 19 bytes of a node page: the signal of the key type, a byte that tells leaves from
internal nodes, a byte that says whether there is a parent, the parent, and the page's own id.

The parent link is the nine bytes in the middle, so a node gets another parent without touching its
keys and offsets.
-/

namespace RecordIndex

/-- The two kinds of nodes. -/
inductive NodeKind where
  | leaf
  | internal
deriving DecidableEq, Repr, Inhabited

namespace NodeKind

/-- The byte of a kind. -/
def byte : NodeKind → UInt8
  | leaf => 1
  | internal => 0

/-- The kind that a byte stands for. -/
def ofByte (b : UInt8) : Except Error NodeKind :=
  if b = 0 then .ok internal
  else if b = 1 then .ok leaf
  else .error (.corrupted (.nodeKind b))

end NodeKind

/-- What every node says about itself. -/
structure NodeHeader where
  kind : NodeKind
  keyType : FieldType
  parent : Option PageId
  page : PageId
deriving DecidableEq, Repr, Inhabited

namespace NodeHeader

/-- The root is the node without a parent. -/
def isRoot (h : NodeHeader) : Bool := h.parent.isNone

/-- The nine bytes of a parent link. -/
def encodeParent : Option PageId → Bytes
  | none => 0 :: BigEndian.encode 8 0
  | some p => 1 :: BigEndian.encode 8 p.number.toNat

/-- The bytes of a header. -/
def encode (h : NodeHeader) : Bytes :=
  h.keyType.signal :: h.kind.byte ::
    (encodeParent h.parent ++ BigEndian.encode 8 h.page.number.toNat)

theorem length_encodeParent (p : Option PageId) : (encodeParent p).length = 9 := by
  cases p <;> simp [encodeParent]

@[simp] theorem length_encode (h : NodeHeader) : h.encode.length = nodeHeaderBytes := by
  simp [encode, length_encodeParent, nodeHeaderBytes]

/-- Reads a parent link. -/
def parentDecoder : Decoder (Option PageId) := do
  let flag ← Decoder.byte
  let parent ← Decoder.word 8
  if flag = 0 then pure none
  else if flag = 1 then pure (some ⟨UInt64.ofNat parent⟩)
  else Decoder.fail (.parentFlag flag)

/-- Reads a header from data that is long enough. -/
def decoder : Decoder NodeHeader := do
  let keyType ← FieldType.decoder
  let kindByte ← Decoder.byte
  let kind ← liftM (NodeKind.ofByte kindByte)
  let parent ← parentDecoder
  let page ← Decoder.word 8
  return ⟨kind, keyType, parent, ⟨UInt64.ofNat page⟩⟩

/-- Reads the header that a byte string starts with. -/
def decode (bs : Bytes) : Except Error NodeHeader :=
  if bs.length < nodeHeaderBytes then .error (.corrupted .headerTooShort) else decoder.run bs

/-- Writes the header over the front of a byte string. -/
def writeOver (h : NodeHeader) (bs : Bytes) : Except Fault Bytes :=
  if bs.length < nodeHeaderBytes then .error .shortHeaderBuffer
  else .ok (h.encode ++ bs.drop nodeHeaderBytes)

end NodeHeader

namespace Page

/-- The header of the node on the page. -/
def header (p : Page) : Except Error NodeHeader := NodeHeader.decode p.bytes

/-- The page with another header in front. -/
def setHeader (p : Page) (h : NodeHeader) : Page :=
  ⟨h.encode ++ p.bytes.drop nodeHeaderBytes, by
    simp only [List.length_append, NodeHeader.length_encode, List.length_drop, p.length_eq]
    decide⟩

end Page
end RecordIndex
