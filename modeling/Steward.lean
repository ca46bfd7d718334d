import Steward.History.Recorded
import Steward.Main
import Steward.Proofs.Ledger.Recovery
import Steward.Proofs.Ledger.RoundTrip
import Steward.Proofs.Ledger.Tamper
import Steward.Proofs.Index.Rescan
import Steward.Proofs.Fix.Settled
import Steward.Proofs.Sweep.Directory
import Steward.Proofs.Opening
import Steward.Proofs.Originals
import Steward.Proofs.Resolution
import Steward.Proofs.Index.Horizon
import Steward.Proofs.Fix.Harmless
import Steward.Proofs.Accounting
import Steward.Proofs.Index.Identity
import Steward.Proofs.Reach
import Steward.Proofs.Fix.Header
import Steward.Proofs.Secret
import Steward.Proofs.History
import Steward.Proofs.Ledger.Times
import Steward.Proofs.Comment.Grammar
import Steward.Proofs.Config
import Steward.Proofs.Fix.Ranges
import Steward.Proofs.Fix.Retry
