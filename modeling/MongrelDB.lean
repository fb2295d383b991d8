import MongrelDB.Epoch.HlcClock
import MongrelDB.Txn.Serializable
import MongrelDB.Txn.ExactlyOnce
import MongrelDB.Storage.Compaction
import MongrelDB.Storage.LiveCount
import MongrelDB.Storage.IndexedSnapshots
import MongrelDB.Storage.TierReads
import MongrelDB.Storage.DirectoryReads
import MongrelDB.Storage.LearnedRange
import MongrelDB.Storage.FastPositions
import MongrelDB.Locks.Safety
import MongrelDB.Columnar.DeltaPages
import MongrelDB.Columnar.UntrustedPages
import MongrelDB.Consensus.Install
import MongrelDB.DistSsi.Window
import MongrelDB.DistTxn.FirstCommitter
import MongrelDB.DistTxn.Expiry
import MongrelDB.Constraints.UniqueIndex
import MongrelDB.Constraints.Sequences
import MongrelDB.Tablets.CatchUp
import MongrelDB.Tablets.KeyRanges
import MongrelDB.Gateway.Retry
import MongrelDB.Meta.Monotone
import MongrelDB.Integrity.Snapshots
import MongrelDB.Security.AuthorizedReads
