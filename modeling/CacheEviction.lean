import CacheEviction.AccessDistance
import CacheEviction.ArcfixRuns
import CacheEviction.Belady
import CacheEviction.CacheusCounters
import CacheEviction.CacheusReport
import CacheEviction.CuckooMark
import CacheEviction.FlashReport
import CacheEviction.GdsfPolicy
import CacheEviction.GhostWindow
import CacheEviction.HashTableReport
import CacheEviction.LecarRuns
import CacheEviction.LfuOverflow
import CacheEviction.LirsRuns
import CacheEviction.MerlinContainer
import CacheEviction.MerlinEpochs
import CacheEviction.MerlinFifoRuns
import CacheEviction.MerlinGhostState
import CacheEviction.MerlinRemove
import CacheEviction.MinimalIncrement
import CacheEviction.MmArcContainer
import CacheEviction.MmCarClock
import CacheEviction.MmCarGhosts
import CacheEviction.MmCarRestart
import CacheEviction.MmVictims
import CacheEviction.ObjectList
import CacheEviction.PriorityQueue
import CacheEviction.S3FifoList
import CacheEviction.ShardProgress
import CacheEviction.SievePolicy
import CacheEviction.SketchAging
import CacheEviction.SlruRuns
import CacheEviction.SplayKeys
import CacheEviction.TraceReader
import CacheEviction.TwoQ
import CacheEviction.WTinyLfu
