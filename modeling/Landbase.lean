import Landbase.Common.Basic
import Landbase.Common.LowerBound
import Landbase.Lib.Transition
import Landbase.Lib.SnapshotStore
import Landbase.Lib.Tally
import Landbase.Lib.RwLock
import Landbase.Common.RecursiveSharedMutex
import Landbase.Seda.Threadpool
import Landbase.Seda.Accounting
import Landbase.Seda.Wakeup
import Landbase.Lib.ThreeWay
import Landbase.Lib.Comparator
import Landbase.Index.Key
import Landbase.Index.Node
import Landbase.Index.BufferPool
import Landbase.Index.BplusTree
import Landbase.Lib.SepChain
import Landbase.Lib.Cells
import Landbase.Index.Tree
import Landbase.Index.Layout
import Landbase.Index.Search
import Landbase.Index.Focus
import Landbase.Index.Insert
import Landbase.Index.Delete
import Landbase.Index.Validate
import Landbase.Index.Run
import Landbase.Index.Shape
import Landbase.Index.Unique
import Landbase.Trx.LatchMemo
import Landbase.Storage.Table
import Landbase.Storage.Consistent
import Landbase.Storage.FailedUpdate
import Landbase.Storage.Schema
import Landbase.Trx.MvccTrx
import Landbase.Trx.Steps
import Landbase.Trx.Invariant
import Landbase.Trx.LogBuffer
import Landbase.Trx.Snapshot
import Landbase.Trx.LostUpdate
import Landbase.Trx.OwnWrites
import Landbase.Trx.SnapshotIsolation
import Landbase.Trx.Edits
import Landbase.Trx.Rollback
import Landbase.Trx.FailedUpdate
import Landbase.Clog.Recover
import Landbase.Clog.Slots
import Landbase.Clog.Agree
import Landbase.Clog.Replay
import Landbase.Clog.Forward
import Landbase.Clog.Equivalence
import Landbase.Trx.Session
import Landbase.Trx.GoneSession
import Landbase.Clog.Crashes
import Landbase.Clog.Flushed
import Landbase.Clog.Catalog
import Landbase.Clog.LogFile
import Landbase.Clog.Codec
import Landbase.Clog.Torn
import Landbase.Index.Scanner
import Landbase.Index.FileHeader
import Landbase.Index.Scan
import Landbase.Index.EqualScan
import Landbase.Lib.Memory
import Landbase.Common.LruCache
import Landbase.Buffer.Frame
import Landbase.Buffer.FileHeader
import Landbase.Buffer.DiskBufferPool
import Landbase.Buffer.Invariant
import Landbase.Buffer.Operations
import Landbase.Buffer.Maintenance
import Landbase.Buffer.Client
import Landbase.Buffer.Coherence
import Landbase.Buffer.Isolation
import Landbase.Buffer.Allocator
import Landbase.Index.Safety
import Landbase.Index.Retry
import Landbase.Lib.Cyclic
import Landbase.Net.RingBuffer
import Landbase.Net.PlainCommunicator
import Landbase.Net.PlainProtocol
import Landbase.Net.BufferedWriter
import Landbase.Sql.Expression
import Landbase.Sql.ConjunctionSimplification
import Landbase.Sql.Filter
import Landbase.Sql.Alias
import Landbase.Lib.Json
import Landbase.Storage.TableMeta
import Landbase.Sql.PredicatePushdown
import Landbase.Sql.IndexScan
import Landbase.Common.Bitmap
import Landbase.Storage.RecordManager
import Landbase.Storage.RecordPage
import Landbase.Storage.RecordStore
import Landbase.Storage.PageGeometry
import Landbase.Lib.Program
import Landbase.Trx.RecordFiles
import Landbase.Trx.Eviction
import Landbase.Index.KeyOrder
import Landbase.Sql.CompareValue
import Landbase.Sql.OrderBy
import Landbase.Sql.PhysicalOperator
import Landbase.Sql.NestedLoopJoin
import Landbase.Sql.OrderPhysicalOperator
import Landbase.Sql.AggrePhysicalOperator
import Landbase.Storage.RecoverPage
import Landbase.Buffer.FrameAllocation
import Landbase.Storage.RecordScan
import Landbase.Storage.ReopenedScan
import Landbase.Storage.ModifyingScan
import Landbase.Storage.ScanPins
import Landbase.Storage.CreateIndex
import Landbase.Net.Lenenc
import Landbase.Net.Packet
import Landbase.Net.MysqlCommunicator
import Landbase.Net.ResultSet
import Landbase.Net.ReadEvent
import Landbase.Sql.ArithmeticExpr
import Landbase.Sql.Date
import Landbase.Sql.Compare
import Landbase.Sql.InExpr
import Landbase.Storage.RecordLayout
import Landbase.Sql.InsertStmt
import Landbase.Storage.RowTuple
import Landbase.Sql.FilterUnit
import Landbase.Sql.Correlation
import Landbase.Lib.Regex
import Landbase.Sql.StringMatch
import Landbase.Sql.Rewriter
import Landbase.Sql.RewriterEnds
import Landbase.Lib.Truncation
import Landbase.Sql.StringBound
import Landbase.Lib.LinkedList
import Landbase.Common.LruNodes
import Landbase.Sql.TableOperators
