/-!
# Slot counters

Each open file counts the slots that it has read, appended, updated and deleted. The counters are
64-bit words and start again at zero after the largest one.
-/

namespace RecordIndex

/-- How many slots have been read, appended, updated and deleted. -/
structure SlotCounters where
  reads : UInt64
  appended : UInt64
  updated : UInt64
  deleted : UInt64
deriving DecidableEq, Repr

namespace SlotCounters

/-- No slot has been touched. -/
def zero : SlotCounters := ⟨0, 0, 0, 0⟩

instance : Inhabited SlotCounters := ⟨zero⟩

/-- The slots that have been written: appended, updated or deleted. -/
def writes (s : SlotCounters) : UInt64 := s.appended + s.updated + s.deleted

/-- The counters with `n` more slots read. -/
def addReads (s : SlotCounters) (n : UInt64) : SlotCounters := { s with reads := s.reads + n }

/-- The counters with `n` more slots appended. -/
def addAppended (s : SlotCounters) (n : UInt64) : SlotCounters :=
  { s with appended := s.appended + n }

/-- The counters with `n` more slots updated. -/
def addUpdated (s : SlotCounters) (n : UInt64) : SlotCounters := { s with updated := s.updated + n }

/-- The counters with `n` more slots deleted. -/
def addDeleted (s : SlotCounters) (n : UInt64) : SlotCounters := { s with deleted := s.deleted + n }

/-- The counters in words. -/
def text (s : SlotCounters) : String :=
  "Stats \x7b read: " ++ toString s.reads.toNat ++ ", appended: " ++ toString s.appended.toNat ++
    ", updated: " ++ toString s.updated.toNat ++ ", deleted: " ++ toString s.deleted.toNat ++
    " \x7d"

end SlotCounters

/-- The counters of the two files of a store. -/
structure StoreCounters where
  index : SlotCounters
  records : SlotCounters
deriving DecidableEq, Repr, Inhabited

namespace StoreCounters

/-- The slots of both files that have been written. -/
def writes (s : StoreCounters) : UInt64 := s.index.writes + s.records.writes

/-- The counters of both files in words. -/
def text (s : StoreCounters) : String :=
  "index: " ++ s.index.text ++ ", records: " ++ s.records.text

end StoreCounters
end RecordIndex
