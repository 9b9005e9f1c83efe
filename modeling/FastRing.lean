import FastRing.Lib.Runs
import FastRing.Lib.Window
import FastRing.Lib.Reorder
import FastRing.Lib.Ledger
import FastRing.Lib.LittleEndian
import FastRing.Lib.Tally
import FastRing.Lib.Spacing
import FastRing.Lib.RoundRobin
import FastRing.Lib.Linearize
import FastRing.Lib.Progress
import FastRing.Lib.Backlog
import FastRing.Lib.Ownership
import FastRing.Lib.Critical
import FastRing.Lib.CString
import FastRing.Lib.Tandem
import FastRing.Types
import FastRing.Timestamp
import FastRing.PosixSleep
import FastRing.CapturePacing
import FastRing.RingBuffer
import FastRing.RingContents
import FastRing.RingCreate
import FastRing.RingOps
import FastRing.BatchSingle
import FastRing.BoundedFifo
import FastRing.RingBounds
import FastRing.Spsc
import FastRing.SpscAccess
import FastRing.SpscInvariant
import FastRing.SpscSafety
import FastRing.SpscFlow
import FastRing.SpscSolo
import FastRing.Barriers
import FastRing.BarrierOrder
import FastRing.TcpClient
import FastRing.TcpSend
import FastRing.SendRounds
import FastRing.Sockets
import FastRing.SocketLeak
import FastRing.Winsock
import FastRing.Workers
import FastRing.Pools
import FastRing.WorkerSpecs
import FastRing.SampleLoss
import FastRing.Framing
import FastRing.BlockSequence
import FastRing.Pipeline
import FastRing.PipelineMoves
import FastRing.PipelineInvariant
import FastRing.WorkerRefinement
import FastRing.EndToEnd
import FastRing.Accounting
import FastRing.SplitPipeline
import FastRing.LostDrops
import FastRing.ThreadManager
import FastRing.ManagerInvariant
import FastRing.StartFailure
import FastRing.Lifecycle
import FastRing.Application
import FastRing.ApplicationMoves
import FastRing.MainManager
import FastRing.ApplicationInvariant
import FastRing.Shutdown
import FastRing.TestServer
import FastRing.Segmentation
import FastRing.CommandLine
import FastRing.Settings
import FastRing.Instances
import FastRing.Isolation
import FastRing.RateDrift
import FastRing.ParserSafety
import FastRing.Queries
import FastRing.OwnerQueries
import FastRing.MonitorReads
import FastRing.Config
import FastRing.RateLimit
import FastRing.Linearizable
import FastRing.WaitFree
import FastRing.WorkerProgress
import FastRing.Leaving
import FastRing.Delivery
import FastRing.Pausing
import FastRing.Overload
import FastRing.Outage
import FastRing.AdcSimulator
import FastRing.AdcLifecycle
import FastRing.AdcCallback
import FastRing.AdcNumbering
import FastRing.Memory
import FastRing.MemoryLedger
import FastRing.Resync
import FastRing.Logger
import FastRing.LogLines
import FastRing.ThreadStats
import FastRing.Latency
