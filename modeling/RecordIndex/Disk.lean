import RecordIndex.Action
import RecordIndex.Disk.FileBytes
import RecordIndex.Disk.Path

/-!
# The disk

Directories hold names of files and of other directories, and a file has bytes.

* A file is known by its `FileId`, which it keeps when its name is removed: who has opened a file
  goes on reading and writing it, and all who have opened it see the same bytes (`Disk.bytes`,
  `Disk.setBytes`).
* `Disk.resolve` follows a path up to its last name. Each name on the way must be that of a
  directory.
* `Disk.openFile` opens the file at a path, and makes it if its name is missing in its directory.
-/

namespace RecordIndex

/-- The number of a file. -/
structure FileId where
  number : Nat
deriving DecidableEq, Repr, Inhabited

/-- What a name stands for. -/
inductive Entry where
  | file (id : FileId)
  | directory
deriving DecidableEq, Repr

/-- What a path leads to: a directory that is there, or a name in one, with or without a slash
behind it, that may or may not stand for something. -/
inductive Target where
  | directory
  | name (directory : Location) (name : String) (slash : Bool)
deriving DecidableEq, Repr

/-- The names in all directories, and the bytes of the files in the order of their numbers. -/
structure Disk where
  entries : List (Location × Entry)
  files : List FileBytes

namespace Disk

/-- The disk with nothing on it. -/
def empty : Disk := ⟨[], []⟩

instance : Inhabited Disk := ⟨empty⟩

/-- Bytes in the longest path, with one that marks its end. -/
def maxPathBytes : Nat := 4096

/-- Bytes in the longest name. -/
def maxNameBytes : Nat := 255

/-- Positions from here on cannot be reached in any file, and no file can be so long. -/
def positionLimit : UInt64 := 0x8000000000000000

/-- The bytes of a file. -/
def bytes (d : Disk) (id : FileId) : FileBytes := (d.files[id.number]?).getD .empty

/-- The disk with other bytes in a file. -/
def setBytes (d : Disk) (id : FileId) (bytes : FileBytes) : Disk :=
  { d with files := d.files.set id.number bytes }

/-- What stands at a place. The working directory, those above it and the root are always there. -/
def entry? (d : Disk) (place : Location) : Option Entry :=
  if place.names.isEmpty then some .directory else d.entries.lookup place

/-- What a name stands for in a directory. -/
def lookUp (d : Disk) (directory : Location) (name : String) : Except IoError (Option Entry) :=
  if maxNameBytes < name.utf8ByteSize then .error .invalidFilename
  else .ok (d.entry? (directory.child name))

/-- Goes from a directory to the one that a name in it stands for. -/
def enter (d : Disk) (directory : Location) (name : String) : Except IoError Location :=
  if name = "." then .ok directory
  else if name = ".." then .ok directory.parent
  else do
    match ← d.lookUp directory name with
    | some .directory => return directory.child name
    | some (.file _) => throw .notADirectory
    | none => throw .notFound

/-- Follows a path up to its last name. -/
def resolve (d : Disk) (path : String) : Except IoError Target :=
  if path.toList.contains '\x00' then .error .invalidInput
  else if path.isEmpty then .error .notFound
  else if maxPathBytes ≤ path.utf8ByteSize then .error .invalidFilename
  else
    let p := Path.ofString path
    match p.names.getLast? with
    | none => .ok .directory
    | some last => do
      let directory ← p.names.dropLast.foldlM d.enter p.start
      if last = "." ∨ last = ".." then
        return .directory
      else
        return .name directory last p.endsInSlash

/-- The disk without what stands at a place. -/
def erase (d : Disk) (place : Location) : Disk :=
  { d with entries := d.entries.filter fun e => e.1 != place }

/-- The disk with an entry at a place where nothing stands. -/
def insert (d : Disk) (place : Location) (e : Entry) : Disk :=
  { d with entries := (place, e) :: d.entries }

/-- The number of the next file that is made. -/
def nextFile (d : Disk) : FileId := ⟨d.files.length⟩

/-- The disk with a file without bytes at a place where nothing stands. -/
def addFile (d : Disk) (place : Location) : Disk :=
  { d.insert place (.file d.nextFile) with files := d.files ++ [.empty] }

/-- What the disk answers to a question, or why it does not. -/
def ask {α : Type} (question : Disk → Except IoError α) : Action Disk α := do
  Action.ofExcept ((question (← get)).mapError .io)

/-- Opens the file at a path, and makes it if its name is missing. A path with a slash behind its
last name asks for a directory, whatever that name is. -/
def openFile (path : String) : Action Disk FileId := do
  match ← ask (resolve · path) with
  | .directory | .name _ _ true => Action.fail (.io .isADirectory)
  | .name directory name false =>
    match ← ask (lookUp · directory name) with
    | some (.file id) => return id
    | some .directory => Action.fail (.io .isADirectory)
    | none =>
      let d ← get
      set (d.addFile (directory.child name))
      return d.nextFile

/-- Removes the name of a file. -/
def removeFile (path : String) : Action Disk Unit := do
  match ← ask (resolve · path) with
  | .directory => Action.fail (.io .isADirectory)
  | .name directory name slash =>
    match ← ask (lookUp · directory name) with
    | none => Action.fail (.io .notFound)
    | some .directory => Action.fail (.io .isADirectory)
    | some (.file _) =>
      if slash then Action.fail (.io .notADirectory)
      else modify (·.erase (directory.child name))

theorem bytes_setBytes {d : Disk} {id : FileId} (h : id.number < d.files.length)
    (bytes : FileBytes) : (d.setBytes id bytes).bytes id = bytes := by
  simp [Disk.bytes, setBytes, h]

theorem bytes_setBytes_of_ne {d : Disk} {id other : FileId} (h : id ≠ other)
    (bytes : FileBytes) : (d.setBytes id bytes).bytes other = d.bytes other := by
  have hn : id.number ≠ other.number := fun e => h (by cases id; cases other; simp_all)
  simp [Disk.bytes, setBytes, hn]

/-- Writing the bytes of a file that it has already. -/
theorem setBytes_self {d : Disk} {id : FileId} (h : id.number < d.files.length) :
    d.setBytes id (d.bytes id) = d := by
  rw [setBytes, bytes, List.getElem?_eq_getElem h, Option.getD_some, List.set_getElem_self]

end Disk
end RecordIndex
