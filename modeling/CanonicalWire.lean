import CanonicalWire.Catalogue
import CanonicalWire.Derive.Plan
import CanonicalWire.Proofs.Ambiguity
import CanonicalWire.Proofs.Appending
import CanonicalWire.Proofs.Attributes
import CanonicalWire.Proofs.BlockForm
import CanonicalWire.Proofs.Bounds
import CanonicalWire.Proofs.BulkRuns
import CanonicalWire.Proofs.ByteForm
import CanonicalWire.Proofs.Decimals
import CanonicalWire.Proofs.Depth
import CanonicalWire.Proofs.Deque
import CanonicalWire.Proofs.Descent
import CanonicalWire.Proofs.EmptyItems
import CanonicalWire.Proofs.Grammar
import CanonicalWire.Proofs.Growth
import CanonicalWire.Proofs.Limits
import CanonicalWire.Proofs.Mirror
import CanonicalWire.Proofs.Paths
import CanonicalWire.Proofs.RoundTrip
import CanonicalWire.Proofs.Scope
import CanonicalWire.Proofs.SortedSequence
import CanonicalWire.Proofs.Suffix
import CanonicalWire.Proofs.UintNumbers
import CanonicalWire.Proofs.Union
import CanonicalWire.Proofs.WideIntegers
