import CdsChecker.CycleGraphExact
import CdsChecker.CycleGraphUndo
import CdsChecker.DataRaceExact
import CdsChecker.Action
import CdsChecker.Promise
import CdsChecker.Execution
import CdsChecker.ModificationOrder
import CdsChecker.DataRaceRecord
import CdsChecker.DataRaceCompact
import CdsChecker.NodeEnumeration
import CdsChecker.NodeBacktrack
import CdsChecker.ReleaseSequence
import CdsChecker.ProcessAction
import CdsChecker.CheckCurrentAction
import CdsChecker.ModelChecker
import CdsChecker.MemorySteps
import CdsChecker.MemoryFrame
import CdsChecker.RunSteps
import CdsChecker.Wakeups
import CdsChecker.ActionEffects
import CdsChecker.NewActions
import CdsChecker.RunLoopSteps
import CdsChecker.Validity
import CdsChecker.Deadlock
import CdsChecker.CurrSteps
import CdsChecker.PromiseCounts
import CdsChecker.ThreadBlocking
import CdsChecker.SharedMutexAsserts
import CdsChecker.Snapshot
import CdsChecker.SnapshotStack
import CdsChecker.YieldOrder
import CdsChecker.FairWindow
import CdsChecker.InferenceSearch
import CdsChecker.ScAnalysis
import CdsChecker.ScBounds
import CdsChecker.ScQuiet
import CdsChecker.ScOrder
import CdsChecker.ScVerdict
import CdsChecker.OrderFrame
import CdsChecker.ThreadLists
import CdsChecker.Coherence
import CdsChecker.CoherenceSteps
import CdsChecker.CoherenceRuns
import CdsChecker.InferenceOrder
import CdsChecker.InferencePruning
import CdsChecker.Library.Strengthening
import CdsChecker.Patches
import CdsChecker.ScGenerator
import CdsChecker.Library.StackSearch
import CdsChecker.CompleteTrace
import CdsChecker.GeneratedOrder
import CdsChecker.RfSbPaths
import CdsChecker.ScTermination
import CdsChecker.ScFrame
import CdsChecker.ScBuild
import CdsChecker.ScReset
import CdsChecker.ScAccess
import CdsChecker.ThreadStarts
import CdsChecker.SpecList
import CdsChecker.Library.LinearProbing
import CdsChecker.HashTable
import CdsChecker.ExecutionGraph
import CdsChecker.MethodCall
import CdsChecker.EdgeAsserts
import CdsChecker.JustifiedNodes
import CdsChecker.Library.LinearExtensions
import CdsChecker.Histories
import CdsChecker.Library.LevelSearch
import CdsChecker.MostRecent
import CdsChecker.ExtractMethod
import CdsChecker.MethodExtent
import CdsChecker.FenceFixes
import CdsChecker.FixCandidates
import CdsChecker.FixFlags
import CdsChecker.FenceRecord
import CdsChecker.Library.Latest
import CdsChecker.FenceConflict
import CdsChecker.Library.VectorClocks
import CdsChecker.QuietSteps
import CdsChecker.Knowledge
import CdsChecker.KnowledgeSteps
import CdsChecker.FutureValues
import CdsChecker.PromiseOrder
import CdsChecker.CycleGraphNodes
import CdsChecker.CheckedWrites
import CdsChecker.KnowledgeRuns
import CdsChecker.FenceSync
import CdsChecker.ReadSources
import CdsChecker.CycleGraphPlaces
import CdsChecker.EdgePlaces
import CdsChecker.WriteOrder
import CdsChecker.WriteOrderRuns
import CdsChecker.ReleaseFences
import CdsChecker.ReleaseHeads
import CdsChecker.FenceEdges
import CdsChecker.Library.Chains
import CdsChecker.ReadChains
