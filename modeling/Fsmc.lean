import Fsmc.Lib.Ancestry
import Fsmc.Lib.AssocList
import Fsmc.Lib.ByteStream
import Fsmc.Lib.Cartesian
import Fsmc.Lib.CoarsestPartition
import Fsmc.Lib.Coloring
import Fsmc.Lib.Ctl
import Fsmc.Lib.CycleSearch
import Fsmc.Lib.DeadStore
import Fsmc.Lib.DecisionList
import Fsmc.Lib.Deferral
import Fsmc.Lib.EraseFirst
import Fsmc.Lib.FirstMatch
import Fsmc.Lib.Fixpoint
import Fsmc.Lib.Liveness
import Fsmc.Lib.LongestWalk
import Fsmc.Lib.Loop
import Fsmc.Lib.NodeElimination
import Fsmc.Lib.PartitionRefinement
import Fsmc.Lib.Places
import Fsmc.Lib.Registry
import Fsmc.Lib.RingWindow
import Fsmc.Lib.Runs
import Fsmc.Lib.SearchTree
import Fsmc.Lib.SeparatedWords
import Fsmc.Lib.SharedStorage
import Fsmc.Lib.SmvFormula
import Fsmc.Lib.SmvModule
import Fsmc.Lib.Tarjan
import Fsmc.Lib.Transducer
import Fsmc.Lib.UpwardWalk
import Fsmc.Lib.Walk
import Fsmc.Lib.Worklist
import Fsmc.Lib.WrappingCounter
import Fsmc.Cpp.Algorithm
import Fsmc.Cpp.Double
import Fsmc.Cpp.Hash
import Fsmc.Cpp.Lines
import Fsmc.Cpp.Regex
import Fsmc.Cpp.RegexSearch
import Fsmc.Cpp.Rounding
import Fsmc.Cpp.Search
import Fsmc.Cpp.Text
import Fsmc.Ir.Action
import Fsmc.Ir.Adjacency
import Fsmc.Ir.AssignmentText
import Fsmc.Ir.Canonical
import Fsmc.Ir.DeterministicId
import Fsmc.Ir.Expression
import Fsmc.Ir.ExpressionText
import Fsmc.Ir.FsmIr
import Fsmc.Ir.GraphOps
import Fsmc.Ir.Guard
import Fsmc.Ir.JsonReader
import Fsmc.Ir.JsonRecoding
import Fsmc.Ir.JsonString
import Fsmc.Ir.Property
import Fsmc.Ir.TargetText
import Fsmc.Ir.WellFormed
import Fsmc.Analysis.ComparisonSearch
import Fsmc.Analysis.EfsmFindings
import Fsmc.Analysis.EfsmInterval
import Fsmc.Analysis.FsmValidator
import Fsmc.Analysis.GuardComparisons
import Fsmc.Analysis.GuardConjunctions
import Fsmc.Analysis.GuardSatisfiability
import Fsmc.Analysis.GuardSplitting
import Fsmc.Analysis.GuardWarnings
import Fsmc.Analysis.Interval
import Fsmc.Analysis.IntervalExact
import Fsmc.Analysis.IntervalSound
import Fsmc.Analysis.ReachedRuns
import Fsmc.Analysis.TimedInvariants
import Fsmc.Analysis.ValidatedHierarchy
import Fsmc.Analysis.ValidatorSearches
import Fsmc.Runtime.Activity
import Fsmc.Runtime.Datapath
import Fsmc.Runtime.Dispatch
import Fsmc.Runtime.Hierarchy
import Fsmc.Runtime.HistoryMemory
import Fsmc.Runtime.HookTrace
import Fsmc.Runtime.MacroStep
import Fsmc.Runtime.Orthogonal
import Fsmc.Runtime.TimedRun
import Fsmc.Passes.AdjacencyIndices
import Fsmc.Passes.BoundaryActionFusion
import Fsmc.Passes.ChoiceInlining
import Fsmc.Passes.CommonActionFactoring
import Fsmc.Passes.ConstantFolding
import Fsmc.Passes.DeadActionElimination
import Fsmc.Passes.DeadStatePruning
import Fsmc.Passes.DeferredEventLowering
import Fsmc.Passes.DeterminismEnforcement
import Fsmc.Passes.EfsmDataPath
import Fsmc.Passes.EventQueueBound
import Fsmc.Passes.FoldedComparisons
import Fsmc.Passes.ForkJoinLowering
import Fsmc.Passes.GuardNormalForm
import Fsmc.Passes.GuardSimplification
import Fsmc.Passes.HierarchyWalks
import Fsmc.Passes.HistoryLowering
import Fsmc.Passes.HistoryRestore
import Fsmc.Passes.JunctionChaining
import Fsmc.Passes.JunctionPaths
import Fsmc.Passes.MicroStepBound
import Fsmc.Passes.MinimizationPartition
import Fsmc.Passes.OrthogonalComposition
import Fsmc.Passes.OrthogonalHierarchy
import Fsmc.Passes.OrthogonalInterference
import Fsmc.Passes.OrthogonalProduct
import Fsmc.Passes.ProductNames
import Fsmc.Passes.RegisterLiveness
import Fsmc.Passes.RunToCompletion
import Fsmc.Passes.SampledChangeTrigger
import Fsmc.Passes.StateMinimization
import Fsmc.Passes.StructuralLowering
import Fsmc.Passes.StructuralPasses
import Fsmc.Passes.SubmachineInlining
import Fsmc.Passes.TransitionFusion
import Fsmc.Passes.TriggerConsistency
import Fsmc.Passes.ZeroTimeCycles
import Fsmc.ModelChecker.Agreement
import Fsmc.ModelChecker.Connectives
import Fsmc.ModelChecker.Counterexamples
import Fsmc.ModelChecker.Ctl
import Fsmc.ModelChecker.CtlSemantics
import Fsmc.ModelChecker.DataPredicate
import Fsmc.ModelChecker.Engines
import Fsmc.ModelChecker.Graph
import Fsmc.ModelChecker.Hierarchy
import Fsmc.ModelChecker.Liveness
import Fsmc.ModelChecker.Ltl
import Fsmc.ModelChecker.Predicate
import Fsmc.ModelChecker.Trace
import Fsmc.ModelChecker.Verify
import Fsmc.Frontend.DiagramText
import Fsmc.Frontend.FormulaText
import Fsmc.Frontend.FormulaTokens
import Fsmc.Frontend.GuardNames
import Fsmc.Frontend.GuardParser
import Fsmc.Frontend.LtlParser
import Fsmc.Frontend.PrintedGuards
import Fsmc.Frontend.SlxArchive
import Fsmc.Frontend.XmlEntities
import Fsmc.Frontend.XmlReader
import Fsmc.Backend.Alike
import Fsmc.Backend.CompositeTimeout
import Fsmc.Backend.DeferredManager
import Fsmc.Backend.DeferredQueue
import Fsmc.Backend.Deserialize
import Fsmc.Backend.DirectCalls
import Fsmc.Backend.HistoryWalk
import Fsmc.Backend.HookBalance
import Fsmc.Backend.LastLeft
import Fsmc.Backend.Machine
import Fsmc.Backend.Operations
import Fsmc.Backend.Program
import Fsmc.Backend.Published
import Fsmc.Backend.Restore
import Fsmc.Backend.RestoredTimers
import Fsmc.Backend.RingBuffer
import Fsmc.Backend.RingObservers
import Fsmc.Backend.Session
import Fsmc.Backend.Snapshot
import Fsmc.Backend.SnapshotRecorder
import Fsmc.Backend.SpscFsm
import Fsmc.Backend.StaticRingBuffer
import Fsmc.Backend.ThreadSafe
import Fsmc.Backend.Timeouts
import Fsmc.Backend.Timer
import Fsmc.Backend.TimerArming
import Fsmc.Backend.TimerTicks
import Fsmc.Emitter.Actions
import Fsmc.Emitter.ExactNames
import Fsmc.Emitter.Generated
import Fsmc.Emitter.GuardOverloads
import Fsmc.Emitter.GuardStructs
import Fsmc.Emitter.HistoryRows
import Fsmc.Emitter.InnerFirst
import Fsmc.Emitter.KindAndTarget
import Fsmc.Emitter.NameSweep
import Fsmc.Emitter.QualifiedNames
import Fsmc.Emitter.Qualify
import Fsmc.Emitter.TransitionTable
import Fsmc.Smv.Branches
import Fsmc.Smv.Followed
import Fsmc.Smv.Lines
import Fsmc.Smv.Parser
import Fsmc.Smv.Predicate
import Fsmc.Smv.Properties
import Fsmc.Smv.Readable
import Fsmc.Smv.Reading
import Fsmc.Smv.RoundTrip
import Fsmc.Smv.Serializer
import Fsmc.Smv.Simulation
import Fsmc.Smv.Text
import Fsmc.Verification.McdcExpressions
import Fsmc.Verification.McdcPairs
