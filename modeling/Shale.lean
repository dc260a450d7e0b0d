import Shale.Reshard.ReplicatedSafety
import Shale.Reshard.ParentAnchoredSafety
import Shale.Replication.ReadAfterWrite
import Shale.Transaction.PlacementSafety
import Shale.Transaction.NeverClobber
import Shale.Concurrency.WriteLocks
import Shale.Replication.AckedCommit
import Shale.Replication.PurgeSafety
import Shale.Scan.Aggregate
import Shale.Reshard.Declared
import Shale.Reshard.GenAgreement
import Shale.Transaction.WriteSet
import Shale.Replication.WriteTiming
import Shale.Membership.Roles
import Shale.Handoff.Release
import Shale.Handoff.SelfHeal
import Shale.Reshard.CopyPass
import Shale.Reshard.Retry
import Shale.Replication.FanoutRun
import Shale.Replication.HandoffRetry
import Shale.Replication.Tiling
import Shale.Transaction.TransactBounds
import Shale.Slate.OpenRef
import Shale.Replication.StampClock
import Shale.Replication.UnionRead
import Shale.Handoff.SettleTimer
import Shale.Concurrency.FlushGroup
import Shale.Scan.AllUnits
import Shale.Storage.TxScan
import Shale.Blob.CoRouting
import Shale.Handoff.MountOrder
