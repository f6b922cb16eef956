import ShardKV.Aof.Later
import ShardKV.Resp.Depth
import ShardKV.Blocking.Wakeup
import ShardKV.Cluster.Handover
import ShardKV.Server.Framing
import ShardKV.Replication.Feed
import ShardKV.Aof.Rewrite
import ShardKV.Commands.Replayed
import ShardKV.Commands.Deadlines
import ShardKV.Server.PubSub
import ShardKV.Resp.Session
import ShardKV.Snapshot.Bounded
import ShardKV.Commands.Lag
import ShardKV.Commands.Scan
import ShardKV.Data.Sweep
import ShardKV.Replication.Replaced
import ShardKV.Commands.BitQueries
import ShardKV.Commands.FieldArith
import ShardKV.Commands.Lcs
import ShardKV.Commands.Sketches
import ShardKV.Commands.StoredLists
import ShardKV.Resp.Written
import ShardKV.Server.Geohash
import ShardKV.Server.Unsaved
import ShardKV.Server.Victims
import ShardKV.Server.Watch
import ShardKV.Cluster.SlotTable
import ShardKV.Commands.Collections
import ShardKV.Replication.Evicted
import ShardKV.Replication.Resumed
import ShardKV.Server.Restored
