import Versioning.Datum
import Versioning.Proofs.Conjunction
import Versioning.Proofs.Fault
import Versioning.Proofs.Grammar
import Versioning.Proofs.Interval
import Versioning.Proofs.Invariant
import Versioning.Proofs.Metadata
import Versioning.Proofs.Pattern
import Versioning.Proofs.Precedence
import Versioning.Proofs.RoundTrip
import Versioning.Proofs.Sameness
import Versioning.Proofs.VersionPattern
import Versioning.Proofs.Window
import Versioning.Selection
import Versioning.Text.Cut
import Versioning.Version.Order
import Versioning.Version.Spelling
import Versioning.Proofs.Interchange
import Versioning.Proofs.Filtering
import Versioning.Proofs.Arrangement
import Versioning.Proofs.Newest
import Versioning.Proofs.Reordering
import Versioning.Proofs.Nesting
import Versioning.Proofs.Contribution
import Versioning.Proofs.SingleClause
