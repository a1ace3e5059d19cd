import Fsyncer.JournalReplay
import Fsyncer.JournalResize
import Fsyncer.SnapshotNames
import Fsyncer.BilogTotal
import Fsyncer.BilogXattr
import Fsyncer.ReplicationCork
import Fsyncer.DiffWrites
import Fsyncer.Framing
import Fsyncer.RsyncBridge
import Fsyncer.CompactionContents
import Fsyncer.SnapshotSizes
import Fsyncer.SnapshotLinks
import Fsyncer.ZeroRuns
import Fsyncer.RateLimiter
import Fsyncer.DeletedFiles
import Fsyncer.DispatchSigns
import Fsyncer.HumanSize
import Fsyncer.JournalBounds
import Fsyncer.FuseAttributes
import Fsyncer.FuseLookups
import Fsyncer.FusePaths
import Fsyncer.Base.TreeViews
