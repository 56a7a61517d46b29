import CrdtRedis.Replication.Service
import CrdtRedis.Replication.Projection
import CrdtRedis.Clock
import CrdtRedis.Basic
import CrdtRedis.Command
import CrdtRedis.Rwf.Header
import CrdtRedis.Rwf.Zset
import CrdtRedis.Rwf.Set
import CrdtRedis.Ori.Set
import CrdtRedis.Ori.Zset
import CrdtRedis.Replication.Epoch
import CrdtRedis.Replication.Causal
import CrdtRedis.Rw.Sets
import CrdtRedis.Rw.Zset
import CrdtRedis.ListElem
import CrdtRedis.Keyspace
import CrdtRedis.ListBase
import CrdtRedis.Rw.List
import CrdtRedis.Rwf.List
import CrdtRedis.Server
import CrdtRedis.Element
import CrdtRedis.Rwf.ZsetConvergence
import CrdtRedis.Rwf.History
import CrdtRedis.Replication.Causality
import CrdtRedis.Rwf.SetRemoveWins
import CrdtRedis.Replication.CausalDelivery
import CrdtRedis.Rw.ZsetDelivery
import CrdtRedis.Rw.Survivors
import CrdtRedis.Rw.ZsetConvergence
import CrdtRedis.ListObject
import CrdtRedis.Rw.ListDelivery
import CrdtRedis.Ori.SetAddWins
import CrdtRedis.Ori.ZsetRecord
import CrdtRedis.Ori.ZsetConvergence
import CrdtRedis.Ori.ZsetScore
import CrdtRedis.Broadcast
import CrdtRedis.Data.Linked
import CrdtRedis.Leid
import CrdtRedis.ListChain
import CrdtRedis.Peers
import CrdtRedis.Rejected
import CrdtRedis.Local
import CrdtRedis.Queue
import CrdtRedis.ListMoves
import CrdtRedis.ListPlace
import CrdtRedis.ListRun
import CrdtRedis.Rw.ListRun
import CrdtRedis.Rwf.ListRun
import CrdtRedis.ListInsert
import CrdtRedis.ListOrder
import CrdtRedis.ListAgree
import CrdtRedis.ListBody
import CrdtRedis.Rw.ListState
import CrdtRedis.Rw.ListLength
import CrdtRedis.Rwf.ListLength
import CrdtRedis.Rw.Arbitration
import CrdtRedis.Rw.ListProperties
import CrdtRedis.Rwf.ListProperties
import CrdtRedis.ClockMemory
import CrdtRedis.Data.Block
import CrdtRedis.Data.CString
import CrdtRedis.Wire
import CrdtRedis.LeidMemory
import CrdtRedis.Rargv
import CrdtRedis.Stored
import CrdtRedis.LeidRange
import CrdtRedis.Status
import CrdtRedis.Buffers
import CrdtRedis.Data.Request
import CrdtRedis.Data.RequestText
import CrdtRedis.Numbers
import CrdtRedis.Output
import CrdtRedis.OutputStream
import CrdtRedis.Query
import CrdtRedis.QueryReader
import CrdtRedis.Cluster
import CrdtRedis.ClusterConvergence
import CrdtRedis.Data.Listing
import CrdtRedis.Data.Tower
import CrdtRedis.SkipList
import CrdtRedis.SkipListOps
import CrdtRedis.SortedSet
import CrdtRedis.SortedSetMap
import CrdtRedis.Replication.Carry
import CrdtRedis.SortedSetKeys
import CrdtRedis.SortedSetQuery
import CrdtRedis.Rwf.ListDepth
import CrdtRedis.Rw.Space
