/-!
# Paths

A path is a row of names with slashes between them. It is read from the left, and starts at the root
if a slash stands in front, else at the working directory. Empty names do not count, a single dot
stays where it is and two dots go one directory up.

* `Location` is a place in the tree of directories, above or below the working directory.
* `Path.ofString` takes a path apart; a slash behind the last name says that it is a directory.
-/

namespace RecordIndex

/-- A place in the tree of directories: the number of directories to go up from the working
directory, or none for the root, and the names to go down from there. -/
structure Location where
  above : Option Nat
  names : List String
deriving DecidableEq, Repr

namespace Location

/-- The directory that relative paths start from. -/
def workingDirectory : Location := ⟨some 0, []⟩

/-- The directory that has none above it. -/
def root : Location := ⟨none, []⟩

/-- The place of a name in a directory. -/
def child (l : Location) (name : String) : Location := { l with names := l.names ++ [name] }

/-- The directory above. -/
def parent (l : Location) : Location :=
  if l.names.isEmpty then { l with above := l.above.map (· + 1) }
  else { l with names := l.names.dropLast }

@[simp] theorem parent_child (l : Location) (name : String) : (l.child name).parent = l := by
  simp [parent, child]

@[simp] theorem parent_root : root.parent = root := rfl

end Location

/-- A path taken apart. -/
structure Path where
  start : Location
  names : List String
  endsInSlash : Bool
deriving DecidableEq, Repr

/-- Takes a path apart. -/
def Path.ofString (s : String) : Path where
  start := if s.startsWith "/" then .root else .workingDirectory
  names := (s.splitOn "/").filter (· != "")
  endsInSlash := s.endsWith "/"

/-- The path of a name in a directory. -/
def joinPath (dir name : String) : String :=
  if dir.isEmpty || dir.endsWith "/" then dir ++ name else dir ++ "/" ++ name

end RecordIndex
