import RecordIndex.Disk
import RecordIndex.SlotFile.Counters

/-!
# Files of slots

A slot file is a row of blocks of one size behind a header that the file leaves to its user.

* `SlotLayout` says where the blocks start and how large they are; a file without a layout has no
  slots. `SlotFile.layOut` counts the slots once, from the length of the file.
* `SlotFile.read`, `write`, `append` and `zero` work on whole slots and count what they do.
* `SlotFile.readBytes` and `writeBytes` work on any bytes and count nothing.

A slot that is not there is reported before a block of the wrong length, and an operation that fails
changes neither the bytes nor the counters.
-/

namespace RecordIndex

/-- Where the slots of a file are: how large each is, and where the first starts. -/
structure SlotLayout where
  slotSize : UInt64
  dataStart : UInt64
deriving DecidableEq, Repr

/-- Where a slot starts. -/
def SlotLayout.position (l : SlotLayout) (slot : UInt64) : UInt64 :=
  l.dataStart + slot * l.slotSize

/-- An open file of slots: the path that it was opened with, the file and its bytes, and what is
known about its slots. -/
structure SlotFile where
  path : String
  file : FileId
  bytes : FileBytes
  layout : Option SlotLayout
  count : UInt64
  counters : SlotCounters
deriving Inhabited

/-- An operation on an open file of slots. -/
abbrev SlotAction := Action SlotFile

namespace SlotFile

/-- The size of a slot, once it is known. -/
def slotSize? (f : SlotFile) : Option UInt64 := f.layout.map (·.slotSize)

/-- The file with its counters at zero. -/
def resetCounters (f : SlotFile) : SlotFile := { f with counters := .zero }

/-- The file without a layout. -/
def forgetLayout (f : SlotFile) : SlotFile := { f with layout := none, count := 0 }

/-- Just opened, a file has no layout. -/
def ofBytes (path : String) (file : FileId) (bytes : FileBytes) : SlotFile :=
  ⟨path, file, bytes, none, 0, .zero⟩

/-- Opens a file. -/
def openAt (path : String) : Action Disk SlotFile := do
  let file ← Disk.openFile path
  return ofBytes path file ((← get).bytes file)

/-- The open file with the bytes that are on the disk now. -/
def reload (f : SlotFile) (d : Disk) : SlotFile := { f with bytes := d.bytes f.file }

/-- The disk with the bytes of the open file. -/
def save (f : SlotFile) (d : Disk) : Disk := d.setBytes f.file f.bytes

/-- Reads bytes at a position. -/
def readBytes (pos : UInt64) (n : Nat) : SlotAction Bytes := do
  if Disk.positionLimit ≤ pos then
    Action.fail (.io .invalidInput)
  else
    match (← get).bytes.read? pos.toNat n with
    | some bs => return bs
    | none => Action.fail (.io .unexpectedEof)

/-- Writes bytes at a position. -/
def writeBytes (pos : UInt64) (bs : Bytes) : SlotAction Unit := do
  if Disk.positionLimit ≤ pos then
    Action.fail (.io .invalidInput)
  else
    modify fun f => { f with bytes := f.bytes.write pos.toNat bs }

/-- Says where the slots are, and counts those that the file has. -/
def layOut (l : SlotLayout) : SlotAction Unit := do
  if l.slotSize = 0 then
    Action.fail (.corrupted .zeroSlotSize)
  else
    let f ← get
    let dataLength := f.bytes.length - l.dataStart.toNat
    if dataLength % l.slotSize.toNat ≠ 0 then
      Action.fail (.corrupted (.partialSlot f.path dataLength l.slotSize.toNat))
    else
      set { f with layout := some l, count := UInt64.ofNat (dataLength / l.slotSize.toNat) }

/-- The layout of a file that has a certain slot. -/
def layoutFor (slot : UInt64) : SlotAction SlotLayout := do
  let f ← get
  match f.layout with
  | some l => if slot < f.count then return l else Action.fail (.slotOutOfBounds slot)
  | none => Action.fail (.slotOutOfBounds slot)

/-- Refuses a block that does not have the size of a slot. -/
def checkLength (l : SlotLayout) (n : Nat) : SlotAction Unit :=
  if n = l.slotSize.toNat then pure () else Action.fail (.slotSizeMismatch l.slotSize.toNat n)

/-- Reads a slot of a size that the caller names. -/
def readExactly (slot : UInt64) (n : Nat) : SlotAction Bytes := do
  let l ← layoutFor slot
  checkLength l n
  let bs ← readBytes (l.position slot) n
  modify fun f => { f with counters := f.counters.addReads 1 }
  return bs

/-- Reads a slot. -/
def read (slot : UInt64) : SlotAction Bytes := do
  let l ← layoutFor slot
  readExactly slot l.slotSize.toNat

/-- Writes over a slot. -/
def write (slot : UInt64) (bs : Bytes) : SlotAction Unit := do
  let l ← layoutFor slot
  checkLength l bs.length
  writeBytes (l.position slot) bs
  modify fun f => { f with counters := f.counters.addUpdated 1 }

/-- Adds a slot behind the last one, and answers its number. -/
def append (bs : Bytes) : SlotAction UInt64 := do
  let f ← get
  match f.layout with
  | none => Action.fail (.invalidOperation (.unknownSlotSize f.path))
  | some l =>
    checkLength l bs.length
    writeBytes (l.position f.count) bs
    modify fun f => { f with count := f.count + 1, counters := f.counters.addAppended 1 }
    return f.count

/-- Fills a slot with zeros. -/
def zero (slot : UInt64) : SlotAction Unit := do
  let l ← layoutFor slot
  writeBytes (l.position slot) (zeros l.slotSize.toNat)
  modify fun f => { f with counters := f.counters.addDeleted 1 }

/-- Drops all bytes. The layout stays. -/
def clear : SlotAction Unit :=
  modify fun f => { f with bytes := f.bytes.setLength 0, count := 0 }

end SlotFile
end RecordIndex
