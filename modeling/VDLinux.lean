import VDLinux.Mm.CmaRuns
import VDLinux.Mm.HugetlbRegions
import VDLinux.Tfsr.BlockMapLookup
import VDLinux.Tfsr.TableBounds
import VDLinux.Tfsr.MountLoads
import VDLinux.SecureBoot.Verify
import VDLinux.Kernel.Kfifo
import VDLinux.Kernel.Dtvlogd
import VDLinux.Net.FilterAttr
import VDLinux.Fs.Deadlock
import VDLinux.Fs.LockTable
import VDLinux.Mm.BuddyRuns
import VDLinux.Lib.IdrRuns
import VDLinux.Kernel.ResCounter
import VDLinux.Fs.AclMode
import VDLinux.Drivers.Raid5
import VDLinux.Lib.RbErase
import VDLinux.Kernel.ResourceRuns
import VDLinux.Kernel.ResourceSplit
import VDLinux.Mm.SwapRuns
import VDLinux.Net.XfrmReplay
import VDLinux.Drivers.Raid10
import VDLinux.Drivers.DvbStream
import VDLinux.Security.CapRuns
import VDLinux.Net.TsnRuns
import VDLinux.Fs.FatExact
import VDLinux.Fs.MballocRuns
import VDLinux.Tfsr.FindValid
import VDLinux.SecureBoot.Shift
import VDLinux.SecureBoot.DivRem
import VDLinux.Drivers.Raid6Recov
import VDLinux.Mm.MemblockRuns
import VDLinux.Lib.SwiotlbRuns
import VDLinux.Tfsr.ScanLatest
import VDLinux.Tfsr.TransSbn
import VDLinux.Tfsr.ReadScts
import VDLinux.Tfsr.PartInfo
import VDLinux.Lib.BitmapList
import VDLinux.Lib.BitmapShift
import VDLinux.Lib.Div64
import VDLinux.Lib.Kmp
import VDLinux.Ipc.Semop
import VDLinux.Crypto.Gf128Tables
