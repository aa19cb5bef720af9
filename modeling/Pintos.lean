import Pintos.Devices.Ide
import Pintos.Devices.Intq
import Pintos.Devices.Partition
import Pintos.Devices.Rtc
import Pintos.Filesys.DirTable
import Pintos.Filesys.FailedCreate
import Pintos.Filesys.FreeMapFile
import Pintos.Filesys.Fsutil
import Pintos.Filesys.NameMap
import Pintos.Filesys.SectorOwnership
import Pintos.Kernel.Arithmetic
import Pintos.Kernel.HashIter
import Pintos.Kernel.PackedBitmap
import Pintos.Threads.ConditionSound
import Pintos.Threads.Init
import Pintos.Threads.LockList
import Pintos.Threads.LockNesting
import Pintos.Threads.Sleep
import Pintos.Userprog.DescriptorNumbers
import Pintos.Userprog.Executable
import Pintos.Userprog.ExitStatus
import Pintos.Userprog.OpenInterleaving
import Pintos.Userprog.PageMap
import Pintos.Userprog.Parent
import Pintos.Userprog.References
import Pintos.Userprog.Segment
import Pintos.Userprog.SyscallResidency
import Pintos.Userprog.WaitLevel
import Pintos.Vm.Eviction
import Pintos.Vm.Protection
import Pintos.Vm.Spage
import Pintos.Vm.SpageLock
import Pintos.Vm.SwapData
import Pintos.Userprog.Arguments
import Pintos.Threads.MallocSafe
