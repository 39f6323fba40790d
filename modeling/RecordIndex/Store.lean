import RecordIndex.PageFile
import RecordIndex.RecordFile

/-!
# Stores

A store is an index file and a record file that are opened together. `StoreConfig` says where they
are; in a directory their names are fixed.
-/

namespace RecordIndex

/-- Where the two files of a store are. -/
structure StoreConfig where
  indexPath : String
  recordPath : String
deriving DecidableEq, Repr, Inhabited

namespace StoreConfig

/-- The two files with their fixed names in a directory. -/
def inDirectory (dir : String) : StoreConfig :=
  ⟨joinPath dir "index.tc", joinPath dir "record.tc"⟩

end StoreConfig

/-- The open files of a store. -/
structure Store where
  config : StoreConfig
  index : SlotFile
  records : SlotFile
deriving Inhabited

/-- An operation on a store. -/
abbrev StoreAction := Action Store

namespace Store

/-- Opens both files, the index file first. -/
def openAt (config : StoreConfig) : Action Disk Store := do
  let index ← PageFile.openAt config.indexPath
  let records ← RecordFile.openAt config.recordPath
  return ⟨config, index, records⟩

/-- Whether the index file has no pages. -/
def isEmpty (s : Store) : Bool := s.index.count == 0

/-- The counters of both files. -/
def counters (s : Store) : StoreCounters := ⟨s.index.counters, s.records.counters⟩

/-- The store with all counters at zero. -/
def resetCounters (s : Store) : Store :=
  { s with index := s.index.resetCounters, records := s.records.resetCounters }

/-- The store with the bytes that are on the disk now. -/
def reload (s : Store) (d : Disk) : Store :=
  { s with index := s.index.reload d, records := s.records.reload d }

/-- The disk with the bytes of the store. -/
def save (s : Store) (d : Disk) : Disk := s.records.save (s.index.save d)

/-- Runs an action on the index file. -/
def onIndex {α : Type} : SlotAction α → StoreAction α :=
  Action.within (fun s => s.index) (fun f s => { s with index := f })

/-- Runs an action on the record file. -/
def onRecords {α : Type} : SlotAction α → StoreAction α :=
  Action.within (fun s => s.records) (fun f s => { s with records := f })

/-- Drops all pages and all records. -/
def clear : StoreAction Unit := do
  onIndex SlotFile.clear
  onRecords RecordFile.clear

/-- Removes both files, the index file first. -/
def deleteFiles (s : Store) : Action Disk Unit := do
  Disk.removeFile s.index.path
  Disk.removeFile s.records.path

end Store
end RecordIndex
