import DiskMap.Wal.Restart
import DiskMap.Wal.Rollback
import DiskMap.Wal.Handles
import DiskMap.Wal.RecoverAgain
import DiskMap.Wal.LogReading
import DiskMap.GlobalLock
import DiskMap.Pool.WriteAhead
import DiskMap.Map.SpaceRuns
import DiskMap.Map.UpdateValue
import DiskMap.Pool.Readers
import DiskMap.Pool.LinkedReplacer
import DiskMap.Pool.SyncFailures
import DiskMap.Map.MachineSizes
import DiskMap.Map.ChainGrowth
import DiskMap.Map.Lookups
import DiskMap.Map.NulKeys
import DiskMap.Map.SplicedParts
import DiskMap.Map.CopiedRanges
import DiskMap.Wal.SetAndUndo
import DiskMap.Map.Sample
import DiskMap.Map.LeafRoundTrip
import DiskMap.Wal.OneByte
import DiskMap.Map.Collapse
import DiskMap.Map.RemoveKey
import DiskMap.Map.WriteInPlace
import DiskMap.Map.UpdateEntry
import DiskMap.Map.Overwrite
import DiskMap.Map.WritePart
import DiskMap.Map.Calls
import DiskMap.Map.CallRuns
import DiskMap.Map.MapRuns
import DiskMap.Map.EmptyAppends
import DiskMap.Map.ReachedMaps
import DiskMap.Wal.Versions
import DiskMap.Pool.AppliedRecords
import DiskMap.Pool.PooledDatabase
import DiskMap.Pool.PooledRecovery
import DiskMap.MapSessions
import DiskMap.Map.VerifyIntegrity
import DiskMap.Wal.Threads
import DiskMap.Wal.ThreadRuns
import DiskMap.Wal.ThreadProgress
import DiskMap.Creation
import DiskMap.MapTransactions
