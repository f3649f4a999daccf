import ReservoirWells.Group.Limits
import ReservoirWells.Segment.Assembly
import ReservoirWells.Segment.Set
import ReservoirWells.Convergence.Check
import ReservoirWells.Proofs.Exact
import ReservoirWells.Proofs.Group.Execution
import ReservoirWells.Proofs.Group.Inspection
import ReservoirWells.Proofs.Group.Blocks
import ReservoirWells.Proofs.Group.Push
import ReservoirWells.Proofs.Group.Correction
import ReservoirWells.Proofs.Group.Totals
import ReservoirWells.Proofs.Group.Installed
import ReservoirWells.Proofs.Group.Splitting
import ReservoirWells.Proofs.Group.Lasting
import ReservoirWells.Proofs.Group.Placement
import ReservoirWells.Proofs.Group.Repetition
import ReservoirWells.Proofs.Group.Calls
import ReservoirWells.Proofs.Group.Knowledge
import ReservoirWells.Proofs.Group.Tree
import ReservoirWells.Proofs.Group.Slots
import ReservoirWells.Proofs.Group.Weighting
import ReservoirWells.Proofs.Group.Withdrawal
import ReservoirWells.Proofs.Ordered
import ReservoirWells.Proofs.Binary64.Rounding
import ReservoirWells.Proofs.Convergence.Measure
import ReservoirWells.Proofs.Group.Enforcement
import ReservoirWells.Proofs.Segment.Tree
import ReservoirWells.Proofs.BlockSystem
import ReservoirWells.Proofs.Dual
import ReservoirWells.Proofs.Group.Agreement
import ReservoirWells.Proofs.Group.Renewal
import ReservoirWells.Proofs.Group.Following
import ReservoirWells.Proofs.Group.Individual
import ReservoirWells.Proofs.Group.Ownership
import ReservoirWells.Proofs.Group.Writes
import ReservoirWells.Proofs.Group.Signs
import ReservoirWells.Proofs.Segment.Terms
import ReservoirWells.Proofs.Segment.Profile
import ReservoirWells.Proofs.Segment.Equations
import ReservoirWells.Proofs.Segment.Runs
import ReservoirWells.Proofs.Segment.Derivatives
import ReservoirWells.Proofs.Segment.Records
import ReservoirWells.Proofs.Group.Directions
import ReservoirWells.Proofs.Group.Independence
import ReservoirWells.Proofs.Segment.Steps
import ReservoirWells.Proofs.Segment.Sessions
import ReservoirWells.Proofs.Segment.Rows
import ReservoirWells.Proofs.Group.Pinning
import ReservoirWells.Proofs.Group.Routes
import ReservoirWells.Proofs.Group.Precedence
import ReservoirWells.Proofs.Group.Reinjection
import ReservoirWells.Proofs.Group.Remainder
import ReservoirWells.Proofs.Group.Maxima
import ReservoirWells.Proofs.Group.Addresses
import ReservoirWells.Proofs.Group.Lineage
import ReservoirWells.Proofs.Group.GuideRates
import ReservoirWells.Proofs.Group.Search
import ReservoirWells.Proofs.Group.Ancestry
import ReservoirWells.Proofs.Segment.Acceptance
import ReservoirWells.Proofs.Segment.Opposition
import ReservoirWells.Proofs.Segment.Newton
import ReservoirWells.Proofs.Binary64.Products
import ReservoirWells.Proofs.Convergence.Listing
import ReservoirWells.Proofs.Convergence.Tightening
import ReservoirWells.Proofs.Segment.Mixtures
import ReservoirWells.Proofs.Segment.Seeding
import ReservoirWells.Proofs.Ledger
import ReservoirWells.Proofs.Segment.WaterCut
import ReservoirWells.Proofs.Segment.Regimes
import ReservoirWells.Proofs.Bound
import ReservoirWells.Proofs.Segment.Set
import ReservoirWells.Group.Network
import ReservoirWells.Group.Plant
import ReservoirWells.Proofs.Group.Network
import ReservoirWells.Proofs.Group.Plant
import ReservoirWells.Proofs.Group.Walks
import ReservoirWells.Proofs.Group.Lists
