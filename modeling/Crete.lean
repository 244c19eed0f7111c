import Crete.Lib.Bytes
import Crete.Lib.Except
import Crete.TestCase.Codec
import Crete.TestCase.Exact
import Crete.Hook.Stream
import Crete.Hook.Handles
import Crete.Hook.Safety
import Crete.Config.Harness
import Crete.Lib.Emit
import Crete.Config.Guest
import Crete.Config.InitialTest
import Crete.Config.Executor
import Crete.Config.Replay
import Crete.Config.Argv
import Crete.Lib.AdjList
import Crete.Lib.Longest
import Crete.Lib.Search
import Crete.Traces.Graph
import Crete.Traces.Kept
import Crete.Traces.Selector
import Crete.Traces.Pool
import Crete.Traces.Conservation
import Crete.Lib.Memory
import Crete.Lib.Relational
import Crete.Tci.Analyzer
import Crete.Tci.Interp
import Crete.Tci.Noninterference
import Crete.Dump.KTest
import Crete.Dump.Recorder
import Crete.Dump.RtInfo
import Crete.Dump.SyncTable
import Crete.Dump.Merge
import Crete.Dump.Recording
import Crete.Traces.Trie
import Crete.Traces.Breadth
import Crete.Traces.Descent
import Crete.Traces.Strategy
import Crete.Traces.Copy
import Crete.Lib.Replace
import Crete.Traces.Cycle
import Crete.Traces.Subranges
import Crete.Traces.Compress
import Crete.Lib.Contraction
import Crete.Traces.Branches
import Crete.Proc.Maps
import Crete.Config.Materialise
import Crete.Dump.Concolics
import Crete.Dump.MakeConcolic
import Crete.Dump.Iteration
import Crete.Lib.Arc
import Crete.Klee.Object
import Crete.Klee.Space
import Crete.Klee.Merge
import Crete.Klee.Store
import Crete.Klee.Sync
import Crete.Klee.Replay
import Crete.Cluster.Conservation
import Crete.Cluster.Targets
import Crete.Cluster.Node
import Crete.Cluster.System
import Crete.Cluster.Provenance
import Crete.Cluster.Isolation
import Crete.Asio.Packets
import Crete.Cluster.Async
import Crete.Lib.Temporal
import Crete.Cluster.Driver
import Crete.Lib.Sweep
import Crete.Lib.Ledger
import Crete.Cluster.Turns
import Crete.Cluster.InitialTest
import Crete.Cluster.Accounting
import Crete.Cluster.Forwarding
import Crete.Cluster.Progress
import Crete.Cluster.KleeLog
