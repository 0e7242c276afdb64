import Ross.Lib.BitSmear
import Ross.Lib.BuddyTiling
import Ross.Lib.ByteBuffer
import Ross.Lib.ByteLayout
import Ross.Lib.ByteStore
import Ross.Lib.CInt
import Ross.Lib.CString
import Ross.Lib.ChannelCount
import Ross.Lib.Compaction
import Ross.Lib.DoublyLinked
import Ross.Lib.ExecutionLedger
import Ross.Lib.IntervalTiling
import Ross.Lib.LinkedTree
import Ross.Lib.ModularStep
import Ross.Lib.Pool
import Ross.Lib.QuadraticProbe
import Ross.Lib.ReduceTree
import Ross.Lib.RequestLedger
import Ross.Lib.RoundTrip
import Ross.Lib.StagedProgram
import Ross.Lib.Transition
import Ross.Lib.UndoLog
import Ross.Core.ActQ
import Ross.Core.AnalysisLp
import Ross.Core.AvlTree
import Ross.Core.Buddy
import Ross.Core.CheckRevent
import Ross.Core.DeltaState
import Ross.Core.EngineStats
import Ross.Core.Event
import Ross.Core.EventQueue
import Ross.Core.FossilHeap
import Ross.Core.Gvt
import Ross.Core.HashTable
import Ross.Core.Kp
import Ross.Core.Machine
import Ross.Core.Mapping
import Ross.Core.NetEvents
import Ross.Core.Network
import Ross.Core.OptGroups
import Ross.Core.Opts
import Ross.Core.Output
import Ross.Core.Printing
import Ross.Core.RandomInternal
import Ross.Core.Rio
import Ross.Core.RioCheckpoint
import Ross.Core.RioStreams
import Ross.Core.Rng
import Ross.Core.RngSeed
import Ross.Core.Sched
import Ross.Core.Serial
import Ross.Core.SigBuffer
import Ross.Core.Signature
import Ross.Core.Splay
import Ross.Core.State
import Ross.Core.StatsBuffer
import Ross.Core.System
import Ross.Proofs.AnalysisSamples
import Ross.Proofs.ArgsFile
import Ross.Proofs.AvlBalance
import Ross.Proofs.AvlIndex
import Ross.Proofs.AvlRotate
import Ross.Proofs.BuddyAccess
import Ross.Proofs.BuddyInvariant
import Ross.Proofs.BuddyRuns
import Ross.Proofs.Buffers
import Ross.Proofs.CheckRevent
import Ross.Proofs.CountedReversal
import Ross.Proofs.DebugRollback
import Ross.Proofs.DeltaState
import Ross.Proofs.EngineSamples
import Ross.Proofs.EventsInTime
import Ross.Proofs.Executed
import Ross.Proofs.Follow
import Ross.Proofs.Forward
import Ross.Proofs.FossilCollect
import Ross.Proofs.FossilPass
import Ross.Proofs.GvtCourse
import Ross.Proofs.GvtFloor
import Ross.Proofs.GvtReduction
import Ross.Proofs.GvtSafety
import Ross.Proofs.GvtTurns
import Ross.Proofs.Handler
import Ross.Proofs.HashIndex
import Ross.Proofs.Holding
import Ross.Proofs.HookFiring
import Ross.Proofs.HookRequests
import Ross.Proofs.HookTrigger
import Ross.Proofs.InitSignatures
import Ross.Proofs.KpAssignment
import Ross.Proofs.KpOrder
import Ross.Proofs.LinearMapping
import Ross.Proofs.Located
import Ross.Proofs.MultModM
import Ross.Proofs.NetBalance
import Ross.Proofs.NetEvents
import Ross.Proofs.OptGroups
import Ross.Proofs.OptSelect
import Ross.Proofs.OptValue
import Ross.Proofs.OptimismWindow
import Ross.Proofs.OutputBuffers
import Ross.Proofs.Placed
import Ross.Proofs.Plays
import Ross.Proofs.PostedQueues
import Ross.Proofs.Printed
import Ross.Proofs.PriorityQueue
import Ross.Proofs.Replay
import Ross.Proofs.RioReload
import Ross.Proofs.RioRoundTrip
import Ross.Proofs.RioSerialize
import Ross.Proofs.RioStore
import Ross.Proofs.RioStreams
import Ross.Proofs.RngReverse
import Ross.Proofs.RngSeed
import Ross.Proofs.RollbackCheck
import Ross.Proofs.RunEnd
import Ross.Proofs.Sent
import Ross.Proofs.Sequential
import Ross.Proofs.SignatureOrders
import Ross.Proofs.SplayQueue
import Ross.Proofs.SplayTree
import Ross.Proofs.Standing
import Ross.Proofs.StatsBounds
import Ross.Proofs.StatsStream
import Ross.Proofs.TieLineage
import Ross.Proofs.Tiebreaker
import Ross.Proofs.Undo
import Ross.Proofs.WhiteMessages
