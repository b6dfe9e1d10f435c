import LevelDB.Db.CompactMemTable
import LevelDB.Db.Files
import LevelDB.Db.Flush
import LevelDB.Db.NatDb
import LevelDB.Db.Queue
import LevelDB.Db.References
import LevelDB.Db.Room
import LevelDB.Db.State
import LevelDB.Db.Steps
import LevelDB.Db.System
import LevelDB.DbFormat
import LevelDB.Env
import LevelDB.FileName
import LevelDB.Lib.Layered
import LevelDB.Lib.Ordered
import LevelDB.Lib.RefCounted
import LevelDB.Lib.Transition
import LevelDB.Lib.Walk
import LevelDB.SkipList.Insert
import LevelDB.SkipList.Iterator
import LevelDB.SkipList.Model
import LevelDB.SkipList.Search
import LevelDB.Status
import LevelDB.VersionSet.Builder
import LevelDB.VersionSet.Compose
import LevelDB.VersionSet.Durable
import LevelDB.VersionSet.Edit
import LevelDB.VersionSet.Get
import LevelDB.VersionSet.LogAndApply
import LevelDB.VersionSet.Manifest
import LevelDB.Db.Groups
import LevelDB.Db.Layering
import LevelDB.Db.Read
import LevelDB.Db.ExactlyOnce
import LevelDB.Db.Schedule
import LevelDB.Db.BackgroundError
import LevelDB.Db.Discipline
import LevelDB.Db.RoomWaits
import LevelDB.Db.Installs
import LevelDB.Db.FileNumbers
import LevelDB.Db.LogPairs
import LevelDB.VersionSet.FailedApply
import LevelDB.Db.TrivialMove
import LevelDB.SkipList.Concurrent
import LevelDB.SkipList.HalfLinked
import LevelDB.SkipList.ConcurrentSearch
import LevelDB.Db.SequenceRanges
import LevelDB.Db.Visibility
import LevelDB.VersionSet.Merge
import LevelDB.Db.FailedFlush
import LevelDB.Db.FileFailures
import LevelDB.Db.RoomContract
import LevelDB.Db.MemTableLives
import LevelDB.Lib.PinnedCache
import LevelDB.Table.BlockReader
import LevelDB.Table.BlockCache
import LevelDB.Table.Checksums
import LevelDB.Table.Open
import LevelDB.Db.TableCache
import LevelDB.VersionSet.Overlap
import LevelDB.VersionSet.FileRefs
import LevelDB.VersionSet.FileCounts
import LevelDB.VersionSet.Clear
import LevelDB.VersionSet.GetFiles
import LevelDB.Db.RoomBounds
import LevelDB.SkipList.Seek
import LevelDB.Lib.Ring
import LevelDB.VersionSet.VersionList
import LevelDB.Lib.RunningMax
import LevelDB.VersionSet.Finalize
import LevelDB.Lib.Versioned
import LevelDB.Db.Retained
import LevelDB.Db.Commits
import LevelDB.Db.LogOrder
import LevelDB.Db.AtomicMap
import LevelDB.Lib.Ranking
import LevelDB.Db.Progress
import LevelDB.SkipList.ConcurrentScan
import LevelDB.VersionSet.PowerCut
import LevelDB.Db.LogLoss
import LevelDB.VersionSet.FileLives
import LevelDB.Db.Levels
import LevelDB.SkipList.ConcurrentLast
import LevelDB.Db.TableGets
import LevelDB.Db.TableReads
