import DripOS.Mm.SharedHalf
import DripOS.Proc.MmapRollback
import DripOS.Fs.FdAccess
import DripOS.Klibc.HashmapDelete
import DripOS.Proc.Urm
import DripOS.Proc.UrmDispatch
import DripOS.Proc.Event
import DripOS.Drivers.Vesa
import DripOS.Proc.SmpKill
import DripOS.Proc.SchedLockRuns
import DripOS.Proc.ElfLoad
import DripOS.Fs.VfsOpen
import DripOS.Fs.CloneFds
import DripOS.Fs.Echfs.Range
import DripOS.Fs.Echfs.ChainRuns
import DripOS.Fs.PipeBuffer
import DripOS.Proc.SleepDeltas
import DripOS.Proc.Repick
import DripOS.Proc.IpcConnect
import DripOS.Mm.PmmMarking
import DripOS.Klibc.Realloc
import DripOS.Proc.ElfHeaders
import DripOS.Mm.PatPages
import DripOS.Proc.MapFromUs
import DripOS.Fs.OpenPipe
import DripOS.Proc.ForkContext
import DripOS.Fs.Echfs.Resolve
import DripOS.Fs.Echfs.NameBuffer
import DripOS.Drivers.Pci
import DripOS.Drivers.Ahci
import DripOS.Drivers.SataBytes
import DripOS.Sys.Madt
import DripOS.Drivers.Display
import DripOS.Fs.ChildOps
import DripOS.Fs.Paths
import DripOS.Klibc.VectorBlock
import DripOS.Klibc.Str
import DripOS.Drivers.Rtc
