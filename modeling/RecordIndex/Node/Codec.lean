import RecordIndex.Node

/-!
# Nodes on pages

Behind the header stand a count and that many offsets, the records of a leaf or the children of an
internal node, in a row of fixed length; then a second count and that many keys.

* `Node.toPage` writes a node. Counts that do not agree, too many entries, and a key of another type
  are errors; a string key that is too long is a fault.
* `Node.ofPage` reads a node from a page with any bytes at all.
-/

namespace RecordIndex

/-- The bytes of the row of offsets, with its count. -/
def encodeOffsets (offsets : List UInt64) : Bytes :=
  BigEndian.encode 4 offsets.length ++
    padTo (maxChildren * idBytes) (offsets.flatMap fun o => BigEndian.encode 8 o.toNat)

/-- The page of a node, from its header, offsets and keys. -/
def encodeNode (header : NodeHeader) (offsets : List UInt64) (keys : List Field) :
    Except Failure Page :=
  if maxChildren < offsets.length ∨ fanout < keys.length then
    .error (.error (.invariantViolation
      (.overfullPage header.page offsets.length keys.length)))
  else
    match keys.find? fun k => k.type ≠ header.keyType with
    | some key => .error (.error (.invalidOperation (.nodeKeyType key header.keyType)))
    | none =>
      match keys.mapM Field.encode with
      | .error fault => .error (.fault fault)
      | .ok parts =>
        .ok (.filled (header.encode ++ encodeOffsets offsets ++
          BigEndian.encode 4 keys.length ++ parts.flatten))

namespace Leaf

/-- The page of a leaf. -/
def toPage (l : Leaf) : Except Failure Page :=
  if l.keys.length ≠ l.records.length then
    .error (.error (.invariantViolation (.leafCounts l.page l.keys.length l.records.length)))
  else
    encodeNode l.header (l.records.map (·.number)) l.keys

end Leaf

namespace Internal

/-- The page of an internal node. -/
def toPage (n : Internal) : Except Failure Page :=
  if n.children.length ≠ n.keys.length + 1 then
    .error (.error (.invariantViolation (.childCounts n.page n.keys.length n.children.length)))
  else
    encodeNode n.header (n.children.map (·.number)) n.keys

end Internal

namespace Decoder

/-- Reads `n` values, one after the other. -/
def times {α : Type} (d : Decoder α) : Nat → Decoder (List α)
  | 0 => pure []
  | n + 1 => do
    let a ← d
    let as ← times d n
    return a :: as

end Decoder

namespace Node

/-- The page of a node. -/
def toPage : Node → Except Failure Page
  | leaf l => l.toPage
  | internal n => n.toPage

/-- Reads the row of offsets. -/
def offsetsDecoder (page : PageId) : Decoder (List UInt64) := do
  let count ← Decoder.word 4
  if maxChildren < count then
    Decoder.fail (.offsetCount page count)
  else
    let offsets ← Decoder.times (UInt64.ofNat <$> Decoder.word 8) count
    let _ ← Decoder.bytes ((maxChildren - count) * idBytes)
    return offsets

/-- Reads the keys. -/
def keysDecoder (header : NodeHeader) : Decoder (List Field) := do
  let count ← Decoder.word 4
  if fanout < count then
    Decoder.fail (.keyCount header.page count)
  else
    Decoder.times (Field.decoder header.keyType) count

/-- The node with a given header, offsets and keys, if their numbers agree. -/
def assemble (header : NodeHeader) (offsets : List UInt64) (keys : List Field) :
    Except Error Node :=
  match header.kind with
  | .leaf =>
    if offsets.length ≠ keys.length then
      .error (.corrupted (.leafCounts header.page keys.length offsets.length))
    else
      .ok (leaf ⟨header.page, header.parent, header.keyType, keys, offsets.map RecordId.mk⟩)
  | .internal =>
    if offsets.length ≠ keys.length + 1 then
      .error (.corrupted (.childCounts header.page keys.length offsets.length))
    else
      .ok (internal ⟨header.page, header.parent, header.keyType, keys, offsets.map PageId.mk⟩)

/-- Reads a node. -/
def decoder : Decoder Node := do
  let header ← NodeHeader.decoder
  let offsets ← offsetsDecoder header.page
  let keys ← keysDecoder header
  liftM (assemble header offsets keys)

/-- Reads the node on a page. -/
def ofPage (p : Page) : Except Error Node := decoder.run p.bytes

end Node
end RecordIndex
