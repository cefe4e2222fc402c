import AbstractionRefinement.SessionPools
import AbstractionRefinement.SolverDescriptions
import AbstractionRefinement.VerificationTasks
import AbstractionRefinement.Proofs.RefinementSoundness
import AbstractionRefinement.Proofs.ConjunctionEncoding
import AbstractionRefinement.Proofs.FeasibilityVerdicts
import AbstractionRefinement.Proofs.WidenedRanges
import AbstractionRefinement.Proofs.ExplicitStates
import AbstractionRefinement.Proofs.ExplicitTransfers
import AbstractionRefinement.Proofs.AutomatonVerdicts
import AbstractionRefinement.Proofs.GraphOrigins
import AbstractionRefinement.Proofs.ReachedErrors
import AbstractionRefinement.Proofs.CountingAutomata
import AbstractionRefinement.Proofs.DiagramCanonicity
import AbstractionRefinement.Proofs.DiagramQuantification
import AbstractionRefinement.Proofs.FormulaAtoms
import AbstractionRefinement.Proofs.PathEnumeration
import AbstractionRefinement.Proofs.TraceInterpolation
import AbstractionRefinement.Proofs.StepFormulas
import AbstractionRefinement.Proofs.ReachedManagers
import AbstractionRefinement.Proofs.SessionAnswers
import AbstractionRefinement.Proofs.SequenceInterpolants
import AbstractionRefinement.Proofs.TransferMonotonicity
import AbstractionRefinement.Proofs.SearchOrder
import AbstractionRefinement.Proofs.EdgeFormulas
import AbstractionRefinement.Proofs.ReachedGraphs
import AbstractionRefinement.Proofs.TimedPaths
import AbstractionRefinement.Proofs.UrgentLocations
import AbstractionRefinement.Proofs.RefinementProgress
import AbstractionRefinement.Proofs.DecodedDiagrams
import AbstractionRefinement.Proofs.SessionIndependence
import AbstractionRefinement.Proofs.ExactJoins
import AbstractionRefinement.Proofs.UnsatisfiableCores
import AbstractionRefinement.Proofs.InterpolantSymbols
import AbstractionRefinement.Proofs.BestTransfers
import AbstractionRefinement.Proofs.GraphForests
import AbstractionRefinement.Proofs.GraphSubtrees
import AbstractionRefinement.Proofs.GraphPaths
import AbstractionRefinement.Proofs.GraphCalls
import AbstractionRefinement.Proofs.PrunedGraphs
import AbstractionRefinement.Proofs.FailedCovers
import AbstractionRefinement.Proofs.SettledGraphs
import AbstractionRefinement.Proofs.FailedExpansions
import AbstractionRefinement.Proofs.InitialZones
import AbstractionRefinement.Proofs.RebuiltTrees
import AbstractionRefinement.Proofs.UnfoldedSimplification
import AbstractionRefinement.Proofs.ZoneTermination
import AbstractionRefinement.Proofs.FoldedFormulas
import AbstractionRefinement.Proofs.EvaluationSoundness
import AbstractionRefinement.Proofs.ArrayEquality
import AbstractionRefinement.Proofs.RationalArithmetic
import AbstractionRefinement.Proofs.WaitlistPolicies
import AbstractionRefinement.Proofs.AtomicDecisions
import AbstractionRefinement.Proofs.BuiltManagers
import AbstractionRefinement.Proofs.DiagramPaths
import AbstractionRefinement.Proofs.DiagramCounts
import AbstractionRefinement.Proofs.DiagramSupport
import AbstractionRefinement.Proofs.DiagramQueries
import AbstractionRefinement.Proofs.ProjectionQueries
import AbstractionRefinement.Proofs.PackedBounds
import AbstractionRefinement.Proofs.RecordedCalls
import AbstractionRefinement.Proofs.StalledRefinements
