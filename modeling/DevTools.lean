import DevTools.Lib.Transition
import DevTools.Lib.Claims
import DevTools.Lib.RwLock
import DevTools.Lib.CString
import DevTools.Sequence.DefaultWorker
import DevTools.Sequence.ExactlyOnce
import DevTools.Sequence.GlobalUnique
import DevTools.Sequence.Snowflake
import DevTools.Sequence.SnowflakeRuns
import DevTools.Sequence.Tagging
import DevTools.Sequence.TwoServices
import DevTools.Election.CreateNode
import DevTools.Election.Handlers
import DevTools.Election.LeaderAgreement
import DevTools.Pool.Interleaving
import DevTools.Pool.Accounting
import DevTools.Pool.Exclusivity
import DevTools.Sequence.SnowflakeFields
import DevTools.Daemon.HashMap
import DevTools.Election.EventRegistry
import DevTools.Sequence.NextValue
import DevTools.Daemon.HashMapRefinement
import DevTools.Pvtrace.Symbols
import DevTools.Lib.Stdio
import DevTools.Pvtrace.CallGraph
import DevTools.Pvtrace.TraceFile
import DevTools.Daemon.Supervisor
import DevTools.Daemon.OneWorker
import DevTools.Daemon.Restart
import DevTools.Sequence.HostileSteps
import DevTools.Sequence.SlowPath
import DevTools.Sequence.Refill
import DevTools.Sequence.OverflowGuard
import DevTools.Pool.ConnectString
import DevTools.Pool.Startup
import DevTools.Pool.IdleOrder
import DevTools.Election.ElectionIdentity
import DevTools.Election.Replay
import DevTools.Daemon.Representation
import DevTools.Daemon.Reinsertion
import DevTools.Daemon.Doublings
import DevTools.Election.Ancestors
import DevTools.Sequence.CommaSearch
import DevTools.Daemon.Kills
import DevTools.Daemon.Properties
import DevTools.Daemon.LineBuffer
import DevTools.Daemon.ScalarValues
import DevTools.Daemon.ListLengths
import DevTools.Election.WatchContinuity
import DevTools.Daemon.Crc32
import DevTools.Daemon.Traversal
import DevTools.Daemon.Handshake
import DevTools.Daemon.Control
import DevTools.Lib.LockOrder
import DevTools.Lib.SelectionSort
import DevTools.Tpcc.Transactions
import DevTools.Tpcc.Consistency
import DevTools.Lib.Shuffle
import DevTools.Tpcc.Permutation
import DevTools.Tpcc.Mix
import DevTools.Tpcc.RowLocks
import DevTools.Tpcc.Load
import DevTools.Pool.Databases
import DevTools.Daemon.Checks
import DevTools.Daemon.ProcTitle
