import Toastium.Reach
import Toastium.Heap
import Toastium.Chain
import Toastium.Word
import Toastium.Layout
import Toastium.Strings
import Toastium.KernelList
import Toastium.Pager
import Toastium.Regions
import Toastium.FdTable
import Toastium.Radix
import Toastium.RadixMap
import Toastium.File
import Toastium.FileRead
import Toastium.InodeRoots
import Toastium.Hashmap
import Toastium.HashmapRuns
import Toastium.Scheduler
import Toastium.KillPaths
import Toastium.ProcessTable
import Toastium.Asid
import Toastium.Allocator
import Toastium.AllocatorInv
import Toastium.AllocatorSteps
import Toastium.AllocatorRuns
import Toastium.AllocatorHint
import Toastium.Pte
import Toastium.Vma
import Toastium.PageTree
import Toastium.VmaSteps
import Toastium.VmaSpec
import Toastium.VmaCalls
import Toastium.VmaRuns
import Toastium.VmaFrees
import Toastium.Trap
import Toastium.TrapFrames
import Toastium.ProcessPointer
import Toastium.ProcessPages
import Toastium.Syscall
import Toastium.TrapHandlers
import Toastium.Dentry
import Toastium.DentryPath
import Toastium.Dtb
import Toastium.DeviceTree
import Toastium.MemoryRegions
import Toastium.UserCopy
import Toastium.Vfs
import Toastium.FsRead
import Toastium.BouncePage
import Toastium.RadixWalk
import Toastium.PageAddress
import Toastium.TableEntry
import Toastium.HashmapKeys
import Toastium.ListItems
import Toastium.ListRemove
import Toastium.ListLoop
import Toastium.InjectData
import Toastium.Linked
import Toastium.DriverManager
import Toastium.UserAccess
import Toastium.FileIrq
import Toastium.ByteOrder
import Toastium.ElfParser
import Toastium.Lasso
import Toastium.DtbEnds
import Toastium.DtbStack
import Toastium.TrapHart
import Toastium.ByteMemory
import Toastium.Memcpy
import Toastium.LowBits
import Toastium.Strncpy
import Toastium.Memcmp
import Toastium.BumpAlloc
import Toastium.Endian
import Toastium.Uart
import Toastium.Riscv
import Toastium.SavedContext
import Toastium.Boot
import Toastium.RoundRobin
import Toastium.AddressSpace
import Toastium.MmuRuns
import Toastium.KernelSpaces
import Toastium.FileRuns
