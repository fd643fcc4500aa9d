import RelPlan.Json.Form
import RelPlan.Proofs.AccessFailures
import RelPlan.Proofs.Boundaries
import RelPlan.Proofs.DistinctUnions
import RelPlan.Proofs.EquivalentPaths
import RelPlan.Proofs.ExtractedRanges
import RelPlan.Proofs.FailedPlans
import RelPlan.Proofs.FailedUpdates
import RelPlan.Proofs.FilterLaws
import RelPlan.Proofs.Folding
import RelPlan.Proofs.HashedKeys
import RelPlan.Proofs.HashedRuns
import RelPlan.Proofs.JoinStrategies
import RelPlan.Proofs.LinkedScans
import RelPlan.Proofs.LoopJoins
import RelPlan.Proofs.MarkedPlans
import RelPlan.Proofs.NameFailures
import RelPlan.Proofs.Pushdown
import RelPlan.Proofs.SortedIndexes
import RelPlan.Proofs.SortedPlans
import RelPlan.Proofs.TypedKeys
import RelPlan.Proofs.UniqueIndexes
import RelPlan.Query
