import ModelChecker.Check.Checker
import ModelChecker.Check.Config
import ModelChecker.Check.Result
import ModelChecker.Command.Arguments
import ModelChecker.Command.Disk
import ModelChecker.Command.Host
import ModelChecker.Command.Path
import ModelChecker.Command.Report
import ModelChecker.Command.Run
import ModelChecker.Command.Timestamp
import ModelChecker.Digest.Sha256
import ModelChecker.Document.Check
import ModelChecker.Document.Config
import ModelChecker.Document.Graph
import ModelChecker.Graph.Basic
import ModelChecker.Graph.Index
import ModelChecker.Graph.Mixing
import ModelChecker.Graph.Systems
import ModelChecker.Json.Decimal
import ModelChecker.Json.Printer
import ModelChecker.Json.Quoted
import ModelChecker.Json.Reader
import ModelChecker.Json.Shape
import ModelChecker.Json.Value
import ModelChecker.Liveness.Lasso
import ModelChecker.Liveness.NestedSearch
import ModelChecker.Main
import ModelChecker.Proofs.Ancestry
import ModelChecker.Proofs.BoundedAnswers
import ModelChecker.Proofs.BoundedBookkeeping
import ModelChecker.Proofs.BoundedHistory
import ModelChecker.Proofs.BoundedLevels
import ModelChecker.Proofs.BoundedListener
import ModelChecker.Proofs.BoundedMarks
import ModelChecker.Proofs.BoundedOrder
import ModelChecker.Proofs.BoundedReopen
import ModelChecker.Proofs.BoundedReport
import ModelChecker.Proofs.BoundedRound
import ModelChecker.Proofs.BoundedRoutes
import ModelChecker.Proofs.BoundedSettle
import ModelChecker.Proofs.BoundedShortcut
import ModelChecker.Proofs.BoundedTrace
import ModelChecker.Proofs.BoundedTrack
import ModelChecker.Proofs.BoundedVerdict
import ModelChecker.Proofs.Bracketing
import ModelChecker.Proofs.BreadthFirstRun
import ModelChecker.Proofs.BreadthFirstStep
import ModelChecker.Proofs.ChunkedQueue
import ModelChecker.Proofs.Collisions
import ModelChecker.Proofs.CycleCut
import ModelChecker.Proofs.DepthFirstFrames
import ModelChecker.Proofs.DepthFirstRun
import ModelChecker.Proofs.Descent
import ModelChecker.Proofs.Dictionary
import ModelChecker.Proofs.Documents
import ModelChecker.Proofs.Elimination
import ModelChecker.Proofs.Erasure
import ModelChecker.Proofs.Events
import ModelChecker.Proofs.Exhaustive
import ModelChecker.Proofs.Explicit
import ModelChecker.Proofs.Fingerprints
import ModelChecker.Proofs.Indexing
import ModelChecker.Proofs.Journal
import ModelChecker.Proofs.JsonText
import ModelChecker.Proofs.Lineage
import ModelChecker.Proofs.Lineup
import ModelChecker.Proofs.Lockstep
import ModelChecker.Proofs.Moments
import ModelChecker.Proofs.NestedAhead
import ModelChecker.Proofs.NestedComplete
import ModelChecker.Proofs.NestedInner
import ModelChecker.Proofs.NestedLasso
import ModelChecker.Proofs.NestedOuter
import ModelChecker.Proofs.NestedProviso
import ModelChecker.Proofs.NestedRun
import ModelChecker.Proofs.NestedVerdict
import ModelChecker.Proofs.NestedWork
import ModelChecker.Proofs.ParentChain
import ModelChecker.Proofs.PartitionedRun
import ModelChecker.Proofs.PartitionedSchedule
import ModelChecker.Proofs.PartitionedStep
import ModelChecker.Proofs.QueueHistory
import ModelChecker.Proofs.QueueOrder
import ModelChecker.Proofs.ReachabilityListener
import ModelChecker.Proofs.ReachabilityRun
import ModelChecker.Proofs.ReachabilityVerdict
import ModelChecker.Proofs.SearchRun
import ModelChecker.Proofs.SeedsFirst
import ModelChecker.Proofs.SelectiveSearch
import ModelChecker.Proofs.ShortestTrace
import ModelChecker.Proofs.SiftedSearch
import ModelChecker.Proofs.Sifting
import ModelChecker.Proofs.SingleWorker
import ModelChecker.Proofs.StateSpace
import ModelChecker.Proofs.Store
import ModelChecker.Proofs.StoreGrowth
import ModelChecker.Proofs.Strategy
import ModelChecker.Proofs.Survivors
import ModelChecker.Proofs.Tally
import ModelChecker.Proofs.Tour
import ModelChecker.Proofs.Traces
import ModelChecker.Proofs.Trail
import ModelChecker.Proofs.Work
import ModelChecker.Queue.Chunked
import ModelChecker.Queue.Fifo
import ModelChecker.Queue.Workers
import ModelChecker.Reduction.Elimination
import ModelChecker.Safety.Bounded
import ModelChecker.Safety.Level
import ModelChecker.Safety.Reachability
import ModelChecker.Safety.Verdict
import ModelChecker.Search.BreadthFirst
import ModelChecker.Search.DepthFirst
import ModelChecker.Search.Explore
import ModelChecker.Search.Fault
import ModelChecker.Search.Listener
import ModelChecker.Search.Partitioned
import ModelChecker.Search.Script
import ModelChecker.StateSpace
import ModelChecker.Store.Basic
import ModelChecker.Store.Handle
import ModelChecker.Store.Shard
import ModelChecker.System
import ModelChecker.Trace.Parent
