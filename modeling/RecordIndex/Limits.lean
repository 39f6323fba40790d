/-!
# Sizes and limits

The constants that fix the shape of the files: how long a string may be, how many keys a node holds,
and how many bytes a page has. The equations between them are checked where they are stated.
-/

namespace RecordIndex

/-- Bytes in a page of the index file. -/
def pageSize : Nat := 4096

/-- Keys that a node holds at most. -/
def fanout : Nat := 5

/-- Keys, and records, of a full leaf. -/
def maxLeafKeys : Nat := fanout

/-- Children of a full internal node. -/
def maxChildren : Nat := fanout + 1

/-- Keys of the smallest leaf that is not the root. -/
def minLeafKeys : Nat := 3

/-- Children of the smallest internal node that is not the root. -/
def minChildren : Nat := 3

/-- Children of the smallest internal root. -/
def minRootChildren : Nat := 2

/-- Bytes of a page id or record id. -/
def idBytes : Nat := 8

/-- Bytes of UTF-8 in the longest string. -/
def maxStringBytes : Nat := 45

/-- Bytes that a string takes, whatever its length: a four-byte length and a fixed slot. -/
def stringFieldBytes : Nat := 50

/-- Bytes before the first slot of a record file. -/
def recordHeaderBytes : Nat := 4

/-- Bytes of a node header. -/
def nodeHeaderBytes : Nat := 19

/-- Bytes of a tree header. -/
def headerPageBytes : Nat := 17

/-- Bytes of the largest node: its header, two counts, a full row of offsets and of string keys. -/
def maxNodeBytes : Nat :=
  nodeHeaderBytes + 4 + maxChildren * idBytes + 4 + maxLeafKeys * stringFieldBytes

theorem maxNodeBytes_le_pageSize : maxNodeBytes ≤ pageSize := by decide

end RecordIndex
