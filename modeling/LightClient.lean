import LightClient.Client
import LightClient.Decimal.Scientific
import LightClient.Form
import LightClient.Settings.Load
import LightClient.Engine.Run
import LightClient.Proofs.Requests.Bookkeeping
import LightClient.Proofs.Requests.Order
import LightClient.Proofs.Chain.Commit
import LightClient.Proofs.Chain.WellFormed
import LightClient.Proofs.Chain.Listener
import LightClient.Proofs.Engine.Moves
import LightClient.Proofs.Engine.Handling
import LightClient.Proofs.Engine.Orderly
import LightClient.Proofs.Engine.Verified
import LightClient.Proofs.Engine.Accountable
import LightClient.Proofs.Engine.Collecting
import LightClient.Proofs.Engine.CatchUp
import LightClient.Proofs.Engine.Quiescence
import LightClient.Proofs.Engine.Complete
import LightClient.Proofs.Engine.Offender
import LightClient.Proofs.Chain.Branch
import LightClient.Proofs.Chain.Histories
import LightClient.Proofs.Engine.Remembered
import LightClient.Proofs.Engine.Faults
import LightClient.Proofs.Engine.Strays
import LightClient.Proofs.Engine.Restart
import LightClient.Proofs.Engine.Stacking
import LightClient.Proofs.Engine.Retrying
import LightClient.Proofs.Engine.Answers
import LightClient.Proofs.Engine.Transcript
import LightClient.Proofs.Merkle.Soundness
import LightClient.Proofs.Engine.Penalty
import LightClient.Proofs.Engine.Progress
import LightClient.Proofs.Engine.Upkeep
import LightClient.Proofs.Merkle.Format
import LightClient.Proofs.Merkle.Building
import LightClient.Proofs.Requests.Histories
import LightClient.Proofs.Requests.Listing
import LightClient.Proofs.Chain.Locator
import LightClient.Proofs.PeerPolicy.Choice
import LightClient.Proofs.Orphans.Backlog
import LightClient.Proofs.Engine.Tips
import LightClient.Proofs.FalsePositives
import LightClient.Proofs.Transport
import LightClient.Proofs.AddressFilter
import LightClient.Proofs.Requests.Releasing
import LightClient.Proofs.Engine.Releasing
import LightClient.Proofs.Transaction
import LightClient.Proofs.Header
import LightClient.Proofs.Work
import LightClient.Proofs.Settings
import LightClient.Proofs.Merkle.Words
