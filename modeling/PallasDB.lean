import PallasDB.Lib.Transition
import PallasDB.Lib.SortedRun
import PallasDB.Lib.BinarySearch
import PallasDB.Lib.Cursor
import PallasDB.Lib.MergeCursor
import PallasDB.Db.Bytes
import PallasDB.Db.SortedArray
import PallasDB.Db.SortedKV
import PallasDB.Db.Tables
import PallasDB.Lib.LittleEndian
import PallasDB.Db.Entry
import PallasDB.Db.Replay
import PallasDB.Db.KV
import PallasDB.Db.KVReads
import PallasDB.Lib.VersionedMap
import PallasDB.Lib.WriteBack
import PallasDB.Db.KVStep
import PallasDB.Db.KVSorted
import PallasDB.Db.KVSnapshot
import PallasDB.Db.KVConflict
import PallasDB.Db.Log
import PallasDB.Db.LogInv
import PallasDB.Db.LogCrash
import PallasDB.Db.LogUpdate
import PallasDB.Db.LogRewrite
import PallasDB.Db.KVRecover
import PallasDB.Db.DurableKV
import PallasDB.Db.DurableInv
import PallasDB.Db.Durability
import PallasDB.Db.KVAlone
import PallasDB.Db.Openable
import PallasDB.Db.CompactFaults
import PallasDB.Db.LogFaults
import PallasDB.Cluster.FSM
import PallasDB.Cluster.Restart
import PallasDB.Cluster.Batch
import PallasDB.Lib.Uvarint
import PallasDB.Cluster.CommandCodec
import PallasDB.Cluster.ApplyEntry
import PallasDB.Cluster.Snapshot
import PallasDB.Cluster.Restore
import PallasDB.Cluster.FSMRun
import PallasDB.Db.KVCache
import PallasDB.Lib.OrderCode
import PallasDB.Db.Cell
import PallasDB.Db.Row
import PallasDB.Db.RowCodec
import PallasDB.Db.Expr
import PallasDB.Db.Plan
import PallasDB.Db.Scan
import PallasDB.Db.TableStore
import PallasDB.Cluster.Bootstrap
import PallasDB.Cluster.Membership
import PallasDB.Cluster.Replicas
import PallasDB.Grpc.Range
import PallasDB.Grpc.Server
import PallasDB.Cmd.DumpStream
import PallasDB.Cmd.Backup
import PallasDB.Lib.RefCount
import PallasDB.Db.TableFiles
import PallasDB.Db.TableTree
import PallasDB.Db.TableRefs
import PallasDB.Db.TableLifetime
import PallasDB.Lib.NestedTx
import PallasDB.Db.KVNested
import PallasDB.Lib.ChunkReader
import PallasDB.Db.EntryRead
import PallasDB.Db.LogReplay
import PallasDB.Db.LogGenerations
import PallasDB.Db.MetaFile
import PallasDB.Lib.FileRegion
import PallasDB.Db.TableFormat
import PallasDB.Db.TableRead
import PallasDB.Db.TableLimit
import PallasDB.Lib.Program
import PallasDB.Db.Statement
import PallasDB.Db.StmtFrame
import PallasDB.Db.PlanTruth
import PallasDB.Db.OpenTx
import PallasDB.Db.RowEdit
import PallasDB.Db.RowCalls
import PallasDB.Db.Mutate
import PallasDB.Db.Mutation
import PallasDB.Db.Projection
import PallasDB.Cluster.AppliedWait
import PallasDB.Lib.Paging
import PallasDB.Db.Select
import PallasDB.Db.SchemaRecord
import PallasDB.Db.InsertSelect
import PallasDB.Cluster.LinearRead
import PallasDB.Client.Retry
