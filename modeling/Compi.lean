import Compi.PartialRun
import Compi.SymbolicExecution
import Compi.SymbolicInterpreter
import Compi.WrappingExpression
import Compi.InterpreterArithmetic
import Compi.InterpreterInvariant
import Compi.MachineInterpreter
import Compi.InterpreterPathConstraint
import Compi.ByteStream
import Compi.SymbolicExecutionFormat
import Compi.ExecutionRoundTrip
import Compi.ConstraintSlicing
import Compi.Worklist
import Compi.YicesSolver
import Compi.Search
import Compi.SolveAtBranch
import Compi.LaunchProgram
import Compi.BranchCoverage
import Compi.CfgDistance
import Compi.StoppableRun
import Compi.SearchRun
import Compi.SearchStrategies
import Compi.LaunchIndices
import Compi.StrategyLaunches
import Compi.ConcolicPrediction
import Compi.CilSyntax
import Compi.CrestAll
import Compi.CrestBranch
import Compi.InstrumentationErasure
import Compi.PreparedProgram
import Compi.InstrumentationAgreement
import Compi.CrestRuntime
import Compi.StackShapes
import Compi.InstrumentedRun
import Compi.StackLayout
import Compi.StackDiscipline
import Compi.MpiCache
import Compi.ConstraintAlignment
import Compi.TruncatedExecution
import Compi.CallTree
import Compi.TargetCalls
import Compi.VariableIndices
import Compi.RecordedTruth
import Compi.MarkedMpiCalls
import Compi.MarkingLockStep
import Compi.RankRewriting
import Compi.CoverageAccounting
import Compi.CoverageCheckpoint
import Compi.MarkedRun
import Compi.SolvedCaps
import Compi.InputCapping
import Compi.BinarySearch
import Compi.PathRepresentation
import Compi.BranchDistances
import Compi.CflDistance
import Compi.FlipRetention
import Compi.BoundedDijkstra
import Compi.CfgThinning
import Compi.ObservedRun
import Compi.HybridWindow
import Compi.ObservedSearch
import Compi.GuardedRun
import Compi.ObservedCfgSearch
import Compi.SearchProgress
import Compi.DistanceSynchronisation
import Compi.SearchBound
import Compi.CounterFiles
import Compi.SymbolicMemory
import Compi.TrackedWrites
import Compi.TrackedRuns
import Compi.CanonicalExpression
import Compi.ShiftExactness
import Compi.OperatorCoding
import Compi.MpiConstraints
import Compi.CommunicatorLookups
import Compi.ConditionMeaning
import Compi.SettlingRun
import Compi.BoundedDepth
import Compi.BranchNodes
import Compi.BranchesFile
import Compi.ReconstructedTables
import Compi.InstrumentedBranches
import Compi.CfgFiles
import Compi.CfgRoundTrip
import Compi.CallBrackets
import Compi.AlphaNames
import Compi.ParsedStatements
import Compi.LabelPositions
import Compi.PrepareCfg
import Compi.PreparedShape
import Compi.PreparedMatching
import Compi.PreparedMeaning
import Compi.OneReturn
import Compi.OneReturnMeaning
import Compi.CompilerPasses
import Compi.CoverageExchange
import Compi.ExhaustiveSearch
import Compi.CfgBranchesFile
import Compi.ProgramDistances
import Compi.WrittenGraph
import Compi.ControlFlow
import Compi.ProgramControl
import Compi.LaunchFiles
