import RecordIndex.Record.Codec
import RecordIndex.SlotFile

/-!
# The file of records

A record file starts with the size of its records, a four-byte word, and is a file of slots of that
size from there on. The first record that is appended fixes the size, and only dropping all records
frees it again.
-/

namespace RecordIndex.RecordFile

/-- The layout of a file with records of a given size. -/
def layout (recordSize : UInt64) : SlotLayout := ⟨recordSize, UInt64.ofNat recordHeaderBytes⟩

/-- The largest record. -/
def maxRecordSize : Nat := 0x7fffffff

/-- The header of a file with records of a given size. -/
def encodeHeader (recordSize : Nat) : Bytes := BigEndian.encode recordHeaderBytes recordSize

/-- Reads the size of the records from the front of a file that is not empty. -/
def recallLayout : SlotAction Unit := do
  let f ← get
  if f.bytes.length = 0 then
    pure ()
  else if f.bytes.length < recordHeaderBytes then
    Action.fail (.corrupted (.recordHeaderTooShort f.path))
  else
    let header ← SlotFile.readBytes 0 recordHeaderBytes
    let size := (UInt32.ofNat (BigEndian.decode header)).toInt32.toInt
    if size ≤ 0 then
      Action.fail (.corrupted (.recordSize size f.path))
    else
      SlotFile.layOut (layout (UInt64.ofNat size.toNat))

/-- Opens a record file. -/
def openAt (path : String) : Action Disk SlotFile := do
  let f ← SlotFile.openAt path
  match recallLayout f with
  | .ok _ f => return f
  | .error e _ => throw e

/-- Refuses a record whose size is not that of the file's slots. -/
def requireSize (n : Nat) : SlotAction Unit := do
  match (← get).slotSize? with
  | some size =>
    if size.toNat = n then pure () else Action.fail (.slotSizeMismatch size.toNat n)
  | none => pure ()

/-- Fixes the size of the records, as the first append does. -/
def fixSize (n : Nat) : SlotAction Unit := do
  if maxRecordSize < n then
    Action.fail (.encoding (.largeRecord n))
  else if n = 0 then
    Action.fail (.encoding .emptyRecord)
  else
    SlotFile.writeBytes 0 (encodeHeader n)
    SlotFile.layOut (layout (UInt64.ofNat n))

/-- Adds a block of bytes as a record. -/
def appendBlock (bs : Bytes) : SlotAction RecordId := do
  if (← get).layout.isNone then
    fixSize bs.length
  RecordId.mk <$> SlotFile.append bs

/-- Adds a record. -/
def add (r : Record) : SlotAction RecordId := do
  let bs ← Action.ofChecked r.encode
  requireSize bs.length
  appendBlock bs

/-- Reads a record. -/
def fetch (id : RecordId) : SlotAction Record := do
  let bs ← SlotFile.read id.number
  Action.ofExcept (Record.decode bs)

/-- Writes a record over another one. -/
def replace (id : RecordId) (r : Record) : SlotAction Unit := do
  let bs ← Action.ofChecked r.encode
  SlotFile.write id.number bs

/-- Fills the slot of a record with zeros. -/
def erase (id : RecordId) : SlotAction Unit := SlotFile.zero id.number

/-- Drops all records and with them the size that they had. -/
def clear : SlotAction Unit := do
  SlotFile.clear
  modify SlotFile.forgetLayout

end RecordIndex.RecordFile
