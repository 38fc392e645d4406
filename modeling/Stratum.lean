import Stratum.Lib.Run
import Stratum.Lib.LastWrite
import Stratum.Lib.Decoder
import Stratum.Lib.BinarySearch
import Stratum.Lib.KWayMerge
import Stratum.Lib.Versions
import Stratum.Lib.Linked
import Stratum.Sstable.Bloom
import Stratum.Sstable.BloomBits
import Stratum.Mvcc.Key
import Stratum.Hlc.Clock
import Stratum.Mvcc.Txn
import Stratum.Wal.Batch
import Stratum.Wal.BatchBytes
import Stratum.Wal.Physical
import Stratum.Wal.RoundTrip
import Stratum.Wal.Recovery
import Stratum.Wal.Recover
import Stratum.Wal.TornTail
import Stratum.Wal.FailedAppend
import Stratum.Wal.Interrupted
import Stratum.Wal.GroupCommit
import Stratum.Wal.Shutdown
import Stratum.Memtable.MemTable
import Stratum.Memtable.Towers
import Stratum.Memtable.SortedMap
import Stratum.Memtable.Manager
import Stratum.Memtable.Memory
import Stratum.Memtable.Tables
import Stratum.Memtable.FlushOrder
import Stratum.Memtable.LogOrder
import Stratum.Memtable.Replay
import Stratum.Memtable.OpenReplay
import Stratum.Memtable.Atomic
import Stratum.Lsm.Version
import Stratum.Lsm.Level
import Stratum.Lsm.Manifest
import Stratum.Lsm.Codec
import Stratum.Lsm.Recovery
import Stratum.Lsm.Reopen
import Stratum.Lsm.ManifestBytes
import Stratum.Sstable.TableFormat
import Stratum.Sstable.Table
import Stratum.Sstable.RoundTrip
import Stratum.Sstable.Cache
import Stratum.Sstable.CacheHistory
import Stratum.Sstable.CacheMap
import Stratum.Sstable.Iterator
import Stratum.Sstable.BlockRead
import Stratum.Sstable.ParseBytes
import Stratum.Lsm.Compaction
import Stratum.Lsm.Tree
import Stratum.Lsm.Flush
import Stratum.Lsm.Execute
import Stratum.Lsm.Session
import Stratum.Lsm.Picker
import Stratum.Lsm.Stall
import Stratum.Lsm.Balance
import Stratum.Lsm.LevelInvariant
import Stratum.Lsm.Crash
import Stratum.Lsm.StallBound
import Stratum.Lsm.Restart
import Stratum.Lsm.FileNumber
import Stratum.Lsm.Round
import Stratum.Lsm.Lookup
import Stratum.Lsm.Scan
import Stratum.Lsm.MergeIterator
import Stratum.Lsm.Outcome
import Stratum.Lsm.CompactionReads
import Stratum.Lsm.Concurrent
import Stratum.Lsm.ReadErrors
import Stratum.Lsm.Pruning
import Stratum.Lsm.Outputs
import Stratum.Lsm.RateLimiter
import Stratum.Db.Store
import Stratum.Db.Linearizable
import Stratum.Db.Machine
import Stratum.Db.Rotation
import Stratum.Db.Lock
import Stratum.Db.Durability
import Stratum.Lib.Consensus.Protocol
import Stratum.Lib.Consensus.Election
import Stratum.Lib.Consensus.Logs
import Stratum.Lib.Consensus.Safety
import Stratum.Raft.Node
import Stratum.Raft.Cluster
import Stratum.Raft.Refinement
import Stratum.Raft.Simulation
import Stratum.Raft.Safety
import Stratum.Raft.Replication
import Stratum.Raft.Follower
import Stratum.Raft.Heartbeat
import Stratum.Raft.Lease
import Stratum.Raft.Goroutines
import Stratum.Raft.CommitIndex
import Stratum.Transport.ClientApi
