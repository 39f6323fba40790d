import RecordIndex.Field
import RecordIndex.Ids
import RecordIndex.Text.Utf8

/-!
# Errors

An operation fails with an `Error`, which names its cause. A caller gets it as a `Report`, in which
the cause is put into words; `Error.report` is the only place that does so.

* `Report.kind` groups the errors by what a caller can do about them, and `Report.recoverable` singles
  out those that leave the store usable as it was.
* A `Fault` is not an error of the store but a broken promise of the program that called it. The
  operations that can meet one fail with a `Failure`: an error or a fault.
-/

namespace RecordIndex

/-- Why a call to the file system failed. -/
inductive IoError where
  | notFound
  | isADirectory
  | unexpectedEof
  | invalidInput
  | notADirectory
  | invalidFilename
deriving DecidableEq, Repr

/-- The name of the failure. -/
def IoError.name : IoError → String
  | notFound => "NotFound"
  | isADirectory => "IsADirectory"
  | unexpectedEof => "UnexpectedEof"
  | invalidInput => "InvalidInput"
  | notADirectory => "NotADirectory"
  | invalidFilename => "InvalidFilename"

/-- Why the bytes of a file cannot be what was once written there. -/
inductive Corruption where
  | endOfData (needed offset left : Nat)
  | fieldType (signal : UInt8)
  | stringLength (length : Nat)
  | fieldText (defect : Utf8.Defect)
  | nameText (defect : Utf8.Defect)
  | headerTooShort
  | nodeKind (byte : UInt8)
  | parentFlag (byte : UInt8)
  | offsetCount (page : PageId) (count : Nat)
  | keyCount (page : PageId) (count : Nat)
  | leafCounts (page : PageId) (keys records : Nat)
  | childCounts (page : PageId) (keys children : Nat)
  | noTreeHeader
  | rootIsHeader
  | zeroSlotSize
  | partialSlot (path : String) (length slotSize : Nat)
  | recordHeaderTooShort (path : String)
  | recordSize (size : Int) (path : String)
  | strayNode (page held : PageId)
  | strayRecord (record : RecordId) (leaf : PageId) (held expected : Field)
deriving DecidableEq, Repr

/-- Which rule of the tree is broken. -/
inductive Violation where
  | headerReference
  | leafCounts (page : PageId) (keys records : Nat)
  | childCounts (page : PageId) (keys children : Nat)
  | overfullPage (page : PageId) (offsets keys : Nat)
  | notAChild (child parent : PageId)
  | misplacedChild (child : PageId) (slot : Nat) (parent : PageId)
  | splitWithoutKeys (page : PageId)
  | notAdjacent (left : PageId) (leftSlot : Nat) (right : PageId) (rightSlot : Nat)
      (parent : PageId)
  | leafWithoutSibling (page : PageId)
  | internalWithoutSibling (page : PageId)
  | emptyLeaf (page : PageId)
  | emptyInternal (page : PageId)
  | parentLink (page : PageId) (found expected : Option PageId)
  | keyType (page : PageId) (found expected : FieldType)
  | keyOrder (page : PageId) (first second : Field)
  | belowSeparator (page : PageId) (key separator : Field)
  | notBelowSeparator (page : PageId) (key separator : Field)
  | leafDepth (page : PageId) (depth others : Nat)
  | leafOccupancy (page : PageId) (records : Nat)
  | childOccupancy (page : PageId) (children : Nat)
  | entryKey (leaf : PageId) (key : Field) (record : RecordId) (held : Field)
deriving DecidableEq, Repr

/-- Why a request makes no sense. -/
inductive InvalidOperation where
  | nodeKeyType (key : Field) (expected : FieldType)
  | treeKeyType (key : Field) (expected : FieldType)
  | treeTypes (found wanted : FieldType)
  | expectedLeaf (page : PageId)
  | expectedInternal (page : PageId)
  | otherFanout (found : Nat)
  | unknownSlotSize (path : String)
  | holdsTree (path : String)
  | holdsNoTree (path : String)
deriving DecidableEq, Repr

/-- Why a value has no encoded form. -/
inductive Unencodable where
  | longString (length : Nat)
  | longName (length : Nat)
  | largeRecord (length : Nat)
  | emptyRecord
deriving DecidableEq, Repr

/-- Why an operation failed. -/
inductive Error where
  | io (cause : IoError)
  | notFound (key : Field)
  | alreadyExists (key : Field)
  | invalidOperation (cause : InvalidOperation)
  | invariantViolation (cause : Violation)
  | encoding (cause : Unencodable)
  | corrupted (cause : Corruption)
  | slotOutOfBounds (slot : UInt64)
  | slotSizeMismatch (expected actual : Nat)
  | needsRepair
deriving DecidableEq, Repr

/-- Errors grouped by what a caller can do about them. -/
inductive ErrorKind where
  | notFound
  | alreadyExists
  | invalidOperation
  | invariantViolation
  | storeIo
deriving DecidableEq, Repr

/-- The name of a kind. -/
def ErrorKind.name : ErrorKind → String
  | notFound => "NotFound"
  | alreadyExists => "AlreadyExists"
  | invalidOperation => "InvalidOperation"
  | invariantViolation => "InvariantViolation"
  | storeIo => "StoreIo"

/-- The wording of a corruption. -/
def Corruption.message : Corruption → String
  | endOfData needed offset left =>
    s!"unexpected end of data: need {needed} bytes at offset {offset}, have {left}"
  | fieldType signal => "unknown field type signal " ++ Text.hexByte signal
  | stringLength n => s!"string length {n} exceeds the {maxStringBytes} byte limit"
  | fieldText defect => "string field is not UTF-8: " ++ defect.message
  | nameText defect => "field name is not UTF-8: " ++ defect.message
  | headerTooShort => "buffer too small for NodeHeader"
  | nodeKind byte => "invalid is_leaf byte " ++ Text.hexByte byte
  | parentFlag byte => "invalid has_parent byte " ++ Text.hexByte byte
  | offsetCount page n => s!"{page} claims {n} offsets"
  | keyCount page n => s!"{page} claims {n} keys"
  | leafCounts page keys records => s!"leaf {page} has {keys} keys but {records} records"
  | childCounts page keys children =>
    s!"internal node {page} has {keys} keys but {children} children"
  | noTreeHeader => "index file has no tree header"
  | rootIsHeader => "tree root points at the header page"
  | zeroSlotSize => "slot size must be non-zero"
  | partialSlot path n size =>
    s!"{path} ends in a partial slot ({n} bytes of {size}-byte slots)"
  | recordHeaderTooShort path => s!"{path} is too short for a record file header"
  | recordSize size path => s!"invalid record size {size} in {path}"
  | strayNode page held => s!"{page} holds the node for {held}"
  | strayRecord record leaf held expected =>
    s!"{record} in leaf {leaf} holds key {held}, expected {expected}"

/-- The wording of a broken rule. -/
def Violation.message : Violation → String
  | headerReference => "node reference to the header page"
  | leafCounts page keys records => s!"leaf {page} has {keys} keys but {records} records"
  | childCounts page keys children =>
    s!"internal node {page} has {keys} keys but {children} children"
  | overfullPage page offsets keys =>
    s!"{page} overflows its page ({offsets} offsets, {keys} keys)"
  | notAChild child parent => s!"{child} is not a child of {parent}"
  | misplacedChild child slot parent => s!"{child} is not at child slot {slot} of {parent}"
  | splitWithoutKeys page => s!"internal node {page} split with no keys"
  | notAdjacent left leftSlot right rightSlot parent =>
    s!"{left} (slot {leftSlot}) and {right} (slot {rightSlot}) are not adjacent siblings in {parent}"
  | leafWithoutSibling page => s!"leaf {page} has no sibling to merge with or borrow from"
  | internalWithoutSibling page =>
    s!"internal node {page} has no sibling to merge with or borrow from"
  | emptyLeaf page => s!"leaf {page} is empty"
  | emptyInternal page => s!"internal node {page} is empty"
  | parentLink page found expected =>
    s!"{page} has parent " ++ PageId.parentText found ++ ", expected " ++
      PageId.parentText expected
  | keyType page found expected => s!"{page} holds {found} keys in a {expected} tree"
  | keyOrder page first second => s!"{page} keys out of order: {first} then {second}"
  | belowSeparator page key separator => s!"{page} key {key} is below its separator {separator}"
  | notBelowSeparator page key separator =>
    s!"{page} key {key} is not below its separator {separator}"
  | leafDepth page depth others => s!"leaf {page} is at depth {depth}, other leaves at {others}"
  | leafOccupancy page n => s!"leaf {page} holds {n} records"
  | childOccupancy page n => s!"internal node {page} has {n} children"
  | entryKey leaf key record held => s!"leaf {leaf} maps {key} to {record} holding key {held}"

/-- The wording of a request that makes no sense. -/
def InvalidOperation.message : InvalidOperation → String
  | nodeKeyType key expected => s!"key {key} does not match node key type {expected}"
  | treeKeyType key expected => s!"key {key} is {key.type}, tree keys are {expected}"
  | treeTypes found wanted => s!"tree keys are {found}, not {wanted}"
  | expectedLeaf page => s!"expected a leaf at {page}, found an internal node"
  | expectedInternal page => s!"expected an internal node at {page}, found a leaf"
  | otherFanout found => s!"index file uses fanout {found}, this build uses {fanout}"
  | unknownSlotSize path => s!"append to {path} before its slot size is known"
  | holdsTree path => s!"{path} already holds a tree"
  | holdsNoTree path => s!"{path} holds no tree"

/-- The wording of a value without an encoded form. -/
def Unencodable.message : Unencodable → String
  | longString n => s!"string of {n} bytes exceeds the {maxStringBytes} byte limit"
  | longName n => s!"field name of {n} bytes is too long"
  | largeRecord n => s!"record of {n} bytes is too large"
  | emptyRecord => "empty record"

/-- An error as it is reported to a caller: what has failed, with the cause in words. -/
inductive Report where
  | io (text : String)
  | notFound (key : Field)
  | alreadyExists (key : Field)
  | invalidOperation (text : String)
  | invariantViolation (text : String)
  | encoding (text : String)
  | corrupted (text : String)
  | slotOutOfBounds (slot : UInt64)
  | slotSizeMismatch (expected actual : Nat)
  | needsRepair
deriving DecidableEq, Repr

namespace Report

/-- The wording of a report. -/
def message : Report → String
  | io text => "I/O error: " ++ text
  | notFound key => s!"key {key} not found"
  | alreadyExists key => s!"key {key} already exists"
  | invalidOperation text => "invalid operation: " ++ text
  | invariantViolation text => "invariant violation: " ++ text
  | encoding text => "encoding error: " ++ text
  | corrupted text => "corrupted data: " ++ text
  | slotOutOfBounds slot => s!"slot {slot.toNat} is out of bounds"
  | slotSizeMismatch expected actual =>
    s!"slot size mismatch: expected {expected} bytes, got {actual}"
  | needsRepair => "tree needs integrity repair after a failed mutation"

/-- The kind of a report. -/
def kind : Report → ErrorKind
  | notFound _ => .notFound
  | alreadyExists _ => .alreadyExists
  | invalidOperation _ | encoding _ => .invalidOperation
  | invariantViolation _ | corrupted _ | needsRepair => .invariantViolation
  | io _ | slotOutOfBounds _ | slotSizeMismatch _ _ => .storeIo

/-- Whether the report is an ordinary answer to a request about a key. -/
def recoverable (r : Report) : Bool := r.kind == .notFound || r.kind == .alreadyExists

end Report

namespace Error

/-- Puts the cause of an error into words. -/
def report : Error → Report
  | io cause => .io cause.name
  | notFound key => .notFound key
  | alreadyExists key => .alreadyExists key
  | invalidOperation cause => .invalidOperation cause.message
  | invariantViolation cause => .invariantViolation cause.message
  | encoding cause => .encoding cause.message
  | corrupted cause => .corrupted cause.message
  | slotOutOfBounds slot => .slotOutOfBounds slot
  | slotSizeMismatch expected actual => .slotSizeMismatch expected actual
  | needsRepair => .needsRepair

/-- The wording of an error. -/
def message (e : Error) : String := e.report.message

/-- Whether the file system failed. -/
def isIo : Error → Bool
  | io _ => true
  | _ => false

end Error

/-- A promise that a caller has broken. -/
inductive Fault where
  /-- A string field that is too long was encoded without being validated. -/
  | overlongString
  /-- A node header was written into fewer bytes than it has. -/
  | shortHeaderBuffer
  /-- A position outside a list of keys, records or children was used. -/
  | outOfRange
  /-- A walk along page links came back to a page that it had seen. -/
  | endlessWalk
deriving DecidableEq, Repr

/-- The wording of a fault. -/
def Fault.message : Fault → String
  | overlongString => s!"string field exceeds {maxStringBytes} bytes"
  | shortHeaderBuffer => "buffer too small for NodeHeader"
  | outOfRange => "position out of range"
  | endlessWalk => "page links form a cycle"

/-- How an operation that trusts its caller can fail. -/
inductive Failure where
  | error (e : Error)
  | fault (f : Fault)
deriving DecidableEq, Repr

end RecordIndex
