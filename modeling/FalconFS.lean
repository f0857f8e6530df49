import FalconFS.Lib.Machine
import FalconFS.Lib.KeyedLoop
import FalconFS.Lib.Prog
import FalconFS.Lib.Frames
import FalconFS.Lib.Forest
import FalconFS.Lib.Ownership
import FalconFS.Lib.OrderedMap
import FalconFS.Lib.Paging
import FalconFS.Lib.Scatter
import FalconFS.Transaction.Cleanup
import FalconFS.Transaction.RemoteComm
import FalconFS.Transaction.SessionClean
import FalconFS.Basic
import FalconFS.Utils.RWLock
import FalconFS.DirPathHash.Model
import FalconFS.DirPathHash.Locks
import FalconFS.DirPathHash.Coherence
import FalconFS.DirPathHash.Calls
import FalconFS.DirPathHash.Eviction
import FalconFS.DirPathHash.Partition
import FalconFS.Metadb.InodeTable
import FalconFS.Metadb.Operation
import FalconFS.Utils.PathParse
import FalconFS.Utils.PathCmp
import FalconFS.Metadb.MetaHandle
import FalconFS.Metadb.ParseSpec
import FalconFS.Metadb.HandleSpec
import FalconFS.Metadb.PathNames
import FalconFS.Metadb.PutSpec
import FalconFS.Metadb.NameSpace
import FalconFS.Cluster.Model
import FalconFS.Cluster.Base
import FalconFS.Cluster.Commit
import FalconFS.Cluster.Replication
import FalconFS.Cluster.Pending
import FalconFS.Cluster.Consistency
import FalconFS.Cluster.Orphans
import FalconFS.Connection.SerializedData
import FalconFS.Utils.ShmemBitmap
import FalconFS.Utils.ShmemAllocator
import FalconFS.Utils.ShmemAlone
import FalconFS.Utils.ShmemOffsets
import FalconFS.Connection.MetaCall
import FalconFS.Connection.WorkerTask
import FalconFS.Connection.Replies
import FalconFS.Metadb.ShardTable
import FalconFS.Metadb.ShardCache
import FalconFS.Metadb.KvMeta
import FalconFS.Metadb.SliceIds
import FalconFS.Metadb.ParamDecode
import FalconFS.Metadb.SliceMeta
import FalconFS.Control.MoveShard
import FalconFS.Client.Router
import FalconFS.Client.RouterTable
import FalconFS.Metadb.ReadDir
import FalconFS.Metadb.KeySpace
import FalconFS.Store.FileLock
import FalconFS.Store.DiskCache
import FalconFS.Store.Node
import FalconFS.Store.Courses
import FalconFS.Store.Pins
import FalconFS.Store.Loads
import FalconFS.Lib.Patch
import FalconFS.Stream.WriteStream
import FalconFS.Utils.InodeSequence
import FalconFS.Lib.Tally
import FalconFS.Lib.Word
import FalconFS.Utils.RWLockWord
import FalconFS.Stream.ReadStream
import FalconFS.Stream.MemPool
import FalconFS.Metadb.CreateBatch
import FalconFS.Client.ReadDir
import FalconFS.Client.ReadDirWorkers
import FalconFS.Connection.SerializedGrowth
import FalconFS.Connection.HostileParam
import FalconFS.Connection.TaskMemory
import FalconFS.Client.ReadDirAgain
import FalconFS.Metadb.RowRuns
import FalconFS.Metadb.RowFrame
import FalconFS.Client.Utimens
import FalconFS.Client.CloseSize
import FalconFS.Lib.Lanes
import FalconFS.Connection.ConcurrentQueue
import FalconFS.Connection.QueueMoves
import FalconFS.Connection.QueueCounters
import FalconFS.Connection.QueueDelivery
import FalconFS.Connection.QueuePass
import FalconFS.Connection.ThreadExit
