import Ydbgo.Lib.Bytes
import Ydbgo.Lib.BigEndian
import Ydbgo.Lib.Journal
import Ydbgo.Lib.Varint
import Ydbgo.Lib.Writes
import Ydbgo.Kv.Store
import Ydbgo.Kv.Scan
import Ydbgo.Kv.History
import Ydbgo.Kv.Compact
import Ydbgo.Kv.Count
import Ydbgo.Storage.Tx
import Ydbgo.Storage.ReadYourWrites
import Ydbgo.Lib.Utf8
import Ydbgo.Sql.Ast
import Ydbgo.Sql.Value
import Ydbgo.Sql.Eval
import Ydbgo.Sql.Aggregate
import Ydbgo.Storage.PkCodec
import Ydbgo.Storage.TableTx
import Ydbgo.Storage.Engine
import Ydbgo.Sql.Exec
import Ydbgo.Sql.RowValues
import Ydbgo.Storage.Atomicity
import Ydbgo.Sql.Clock
import Ydbgo.Raft.Commands
import Ydbgo.Raft.Fsm
import Ydbgo.Sql.Insert
import Ydbgo.Sql.Panics
import Ydbgo.Sql.Reference
import Ydbgo.Lib.PrefixCode
import Ydbgo.Lib.Prog
import Ydbgo.Lib.Replay
import Ydbgo.Sql.Planner
import Ydbgo.Storage.PkRange
import Ydbgo.Storage.PkOrder
import Ydbgo.Storage.KeyOrder
import Ydbgo.Storage.Records
import Ydbgo.Sql.PlannerRange
import Ydbgo.Sql.PlannerTests
import Ydbgo.Sql.PlannerRight
import Ydbgo.Sql.PlanWhere
import Ydbgo.Sql.DeleteRight
import Ydbgo.Sql.InsertRight
import Ydbgo.Sql.UpdateRight
import Ydbgo.Sql.UpdateColumnar
import Ydbgo.Sql.StatementsRight
import Ydbgo.Sql.PlannerFold
import Ydbgo.Sql.Bincodec
import Ydbgo.Sql.BincodecRoundTrip
import Ydbgo.Raft.LogStore
import Ydbgo.Raft.LogDurability
import Ydbgo.Lib.SortedMap
import Ydbgo.Lib.Split
import Ydbgo.Lib.Layers
import Ydbgo.Lib.KWayMerge
import Ydbgo.Raft.TornTail
import Ydbgo.Raft.StableStore
import Ydbgo.Raft.StableDurability
import Ydbgo.Raft.Steps
import Ydbgo.Raft.Definitions
import Ydbgo.Raft.Replay
import Ydbgo.Mpart.Row
import Ydbgo.Mpart.Merge
import Ydbgo.Mpart.Reference
import Ydbgo.Mpart.MergePaths
import Ydbgo.Mpart.MergeRight
import Ydbgo.Mpart.WalkRight
import Ydbgo.Mpart.PartZones
import Ydbgo.Mpart.Opening
import Ydbgo.Raft.GroupCommit
import Ydbgo.Storage.IndexRuns
import Ydbgo.Storage.IndexLookup
import Ydbgo.Storage.KvRight
import Ydbgo.Lib.Best
import Ydbgo.Sql.ShardUnion
import Ydbgo.Sql.DirectRight
import Ydbgo.Shard.OwnershipRight
import Ydbgo.Shard.Freeze
import Ydbgo.Shard.HealRight
import Ydbgo.Shard.Wire
import Ydbgo.Shard.MetaFsm
import Ydbgo.Sql.SelectRight
import Ydbgo.Sql.BincodecCut
import Ydbgo.Sql.Like
import Ydbgo.Shard.Pinned
import Ydbgo.Sql.ParserSafe
import Ydbgo.Sql.Scripts
import Ydbgo.Mpart.LiveCount
import Ydbgo.Proto.ClientSafe
import Ydbgo.Storage.SnapshotCut
import Ydbgo.Sql.Print
import Ydbgo.Sql.PrintLexed
import Ydbgo.Sql.PrintTokens
import Ydbgo.Sql.PrintRules
import Ydbgo.Sql.PrintExprs
import Ydbgo.Sql.PrintStatements
import Ydbgo.Sql.PrintRight
import Ydbgo.Sql.PrintMeaning
