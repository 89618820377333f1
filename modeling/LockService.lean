import LockService.Codec
import LockService.Lib.FilePath
import LockService.Lib.FileTree
import LockService.Paths
import LockService.StateMachine
import LockService.Snapshots
import LockService.LogReplay
import LockService.CatchUp
import LockService.Convergence
import LockService.Confinement
import LockService.Lib.Store
import LockService.Handlers
import LockService.Lib.Run
import LockService.Sessions
import LockService.Effects
import LockService.Traces
import LockService.Lib.RWLock
import LockService.LockTable
import LockService.EndSession
import LockService.Jeopardy
import LockService.Requests
import LockService.Failover
import LockService.KeepAlive
import LockService.Replication
import LockService.Readers
import LockService.Cluster
import LockService.LiveOwners
import LockService.Spellings
import LockService.Holdings
import LockService.Client
import LockService.OneLeader
import LockService.ClientLocks
import LockService.Restarts
import LockService.Leases
import LockService.StaleReads
import LockService.Leaks
import LockService.Deletion
import LockService.FreshSessions
import LockService.Lib.OffsetLog
import LockService.LogStore
import LockService.LogRefinement
import LockService.SnapshotTasks
import LockService.Ledger
import LockService.LeaseWidth
import LockService.Clocked
import LockService.LeaseTimes
import LockService.Adoption
import LockService.Expiry
import LockService.Termination
import LockService.Retention
import LockService.SnapshotTransfer
import LockService.Lib.Batch
import LockService.LogPacks
import LockService.LogBatches
import LockService.ReadBack
import LockService.Addresses
import LockService.Membership
import LockService.Grace
import LockService.LeaseSafety
import LockService.Reclaim
import LockService.CommitSteps
import LockService.Lib.LastPut
import LockService.Registers
import LockService.Clients
import LockService.LogShipping
import LockService.Lib.Account
import LockService.Logger
import LockService.LoggerThreads
import LockService.Protection
import LockService.Replicas
import LockService.Waiting
