import MayMust.Cfg.OverApproximation
import MayMust.Analysis.Backward.Ssa
import MayMust.Analysis.Backward.BugFound
import MayMust.Analysis.Backward.CallSummaries
import MayMust.Analysis.Loops.ForwardReach
import MayMust.Analysis.Loops.Detection
import MayMust.Library.BackwardPass
import MayMust.Analysis.Loops.BackwardStates
import MayMust.Analysis.Loops.Checker
import MayMust.Analysis.Loops.ExitClosure
import MayMust.Cfg.Adapter.Arithmetic
import MayMust.Cfg.Exactness
import MayMust.Interproc.Query
import MayMust.Analysis.Loops.Preliminary
import MayMust.Analysis.AnalyzeWithTables
import MayMust.Cfg.Adapter.ReturnSummary
import MayMust.Cfg.Adapter.Instantiation
import MayMust.Cfg.Adapter.Anchoring
import MayMust.Cfg.Adapter.PointerAgreement
import MayMust.Analysis.Dart.Completeness
import MayMust.Cfg.Adapter.Casts
import MayMust.PointerAnalysis.FieldCycles
import MayMust.PointerAnalysis.Constraints
import MayMust.Cfg.Adapter.Purity
import MayMust.Cfg.Adapter.ExtRegions
import MayMust.Cfg.Adapter.MemoryIntrinsics
import MayMust.Interproc.ObserverSummary
import MayMust.Interproc.RecordedSummaries
import MayMust.Cfg.BackEdges
import MayMust.Analysis.Loops.NaturalBody
import MayMust.Analysis.Loops.Invalidation
import MayMust.Cfg.Adapter.Assembly
import MayMust.Cfg.Adapter.GepChains
import MayMust.Interproc.Elimination
import MayMust.Interproc.Safety
import MayMust.Smt.Solver
import MayMust.Analysis.Invariants.Evaluation
import MayMust.Smt.ModelBindings
import MayMust.Cfg.Adapter.FlatAddresses
import MayMust.Analysis.Dart.Simultaneous
import MayMust.Frontend.Assertions.Grouping
import MayMust.Frontend.Assertions.RealLiterals
import MayMust.Analysis.Invariants.Feedback
import MayMust.Analysis.Invariants.Synthesis
import MayMust.Formula.Constructors
import MayMust.Cfg.Renaming
import MayMust.Analysis.Backward.Tautology
import MayMust.Analysis.Dart.Versions
import MayMust.Analysis.Invariants.Arrivals
