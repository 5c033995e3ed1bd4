import Patchwork.Acpi.Devices
import Patchwork.Acpi.Object
import Patchwork.Fs.Lookup
import Patchwork.Fs.MountFailure
import Patchwork.Fs.Netfs
import Patchwork.Fs.Permissions
import Patchwork.Fs.ReadOnly
import Patchwork.Io.Irp
import Patchwork.Io.RingLayout
import Patchwork.Io.RingLinks
import Patchwork.Libstd.Calloc
import Patchwork.Libstd.Mtx
import Patchwork.Libstd.Relocate
import Patchwork.Mem.BootInfo
import Patchwork.Mem.CacheRuns
import Patchwork.Mem.CallbackRuns
import Patchwork.Mem.ClearTables
import Patchwork.Mem.PinRuns
import Patchwork.Mem.PoolRuns
import Patchwork.Mem.SetFlags
import Patchwork.Mem.UserCopy
import Patchwork.Net.LocalRuns
import Patchwork.Proc.Kill
import Patchwork.Proc.Reaper
import Patchwork.Sched.Overflow
import Patchwork.Sched.Select
import Patchwork.Sched.Timeouts
import Patchwork.Sched.WaitCalls
import Patchwork.Sync.GraceEnds
import Patchwork.Sync.Lock
import Patchwork.Sync.MutexOwner
import Patchwork.Sync.RwLock
import Patchwork.Sync.RwMutex
import Patchwork.Utils.ClearRegion
import Patchwork.Utils.MapRuns
import Patchwork.Utils.RbSystem
import Patchwork.Utils.WeakPtrRuns
