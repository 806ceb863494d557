import Dataflow.Command.Directory
import Dataflow.Func.Build
import Dataflow.Main
import Dataflow.Proofs.CallerMemory
import Dataflow.Proofs.CopyOrder
import Dataflow.Proofs.Matching
import Dataflow.Proofs.Preservation
import Dataflow.Proofs.Reporting
import Dataflow.Proofs.RoundTrip
import Dataflow.Proofs.Scoping
import Dataflow.Proofs.Refusals
import Dataflow.Proofs.Closure
import Dataflow.Proofs.FixedPoint
import Dataflow.Proofs.Costs
import Dataflow.Proofs.Pricing
import Dataflow.Proofs.Aliasing
import Dataflow.Proofs.RunTimeBounds
import Dataflow.Proofs.TiledNests
import Dataflow.Proofs.TiledRuns
import Dataflow.Proofs.TiledOrder
import Dataflow.Proofs.ExactCover
import Dataflow.Proofs.StepScaling
import Dataflow.Proofs.TilingPlans
import Dataflow.Proofs.ParallelLoops
import Dataflow.Proofs.TiledParallelism
import Dataflow.Proofs.TilingCandidates
import Dataflow.Proofs.Retiling
import Dataflow.Proofs.EvenShares
import Dataflow.Proofs.AgreementRuns
import Dataflow.Proofs.GreedyShares
import Dataflow.Proofs.Reseeding
import Dataflow.Proofs.BudgetFlow
import Dataflow.Proofs.ProgramOrder
import Dataflow.Proofs.ExactCosts
import Dataflow.Proofs.BudgetedParents
import Dataflow.Proofs.BandPartition
import Dataflow.Proofs.CorrelationMaps
import Dataflow.Proofs.CorrelatedShares
import Dataflow.Proofs.CopyEffect
import Dataflow.Proofs.Traversal
import Dataflow.Proofs.TrialDivision
