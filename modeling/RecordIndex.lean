import RecordIndex.Proofs.Accounting
import RecordIndex.Proofs.Audit
import RecordIndex.Proofs.Clearing
import RecordIndex.Proofs.Codec.NodeFormat
import RecordIndex.Proofs.Damage.AuditRun
import RecordIndex.Proofs.Damage.Termination
import RecordIndex.Proofs.LookupReads
import RecordIndex.Proofs.Marking
import RecordIndex.Proofs.RecordBlocks
import RecordIndex.Proofs.RecordFormat
import RecordIndex.Proofs.Relinking
import RecordIndex.Proofs.Reopening
import RecordIndex.Proofs.SlotArray
import RecordIndex.Proofs.WriteCosts
import RecordIndex.Tree.Audit
import RecordIndex.Tree.Change
