import OreUnix.Kernel.Base
import OreUnix.Lib.ByteMem
import OreUnix.Lib.FreeList
import OreUnix.Lib.Run
import OreUnix.Lib.Bitmap
import OreUnix.Lib.Wp
import OreUnix.Lib.Tally
import OreUnix.Lib.CircularList
import OreUnix.Lib.FramePool
import OreUnix.Mm.Kmalloc
import OreUnix.Mm.KmallocRepr
import OreUnix.Mm.KmallocRun
import OreUnix.Mm.Pmm
import OreUnix.Mm.PmmRun
import OreUnix.Mm.Paging
import OreUnix.Mm.AddressSpace
import OreUnix.Mm.PagingSpec
import OreUnix.Mm.CloneSpec
import OreUnix.Mm.CloneCount
import OreUnix.Mm.SpaceOps
import OreUnix.Mm.Isolation
import OreUnix.Arch.TrapFrame
import OreUnix.Fs.Objects
import OreUnix.Fs.Ramfs
import OreUnix.Fs.Lookup
import OreUnix.Fs.Answer
import OreUnix.Fs.Vfs
import OreUnix.Fs.LookupSpec
import OreUnix.Fs.TreeInv
import OreUnix.Fs.CallSpec
import OreUnix.Fs.NamesPersist
import OreUnix.Fs.FileBuffer
import OreUnix.Proc.Task
import OreUnix.Proc.Sched
import OreUnix.Proc.Lifecycle
import OreUnix.Proc.Rules
import OreUnix.Proc.RunQueue
import OreUnix.Proc.WaitQueue
import OreUnix.Proc.Lineage
import OreUnix.Proc.Pids
import OreUnix.Proc.SignalPointers
import OreUnix.Proc.Waitpid
import OreUnix.Proc.Family
import OreUnix.Lib.RingBuffer
import OreUnix.Fs.Pipe
import OreUnix.Fs.PipeHangup
import OreUnix.Fs.Descriptors
import OreUnix.Fs.DescriptorsSpec
import OreUnix.Fs.References
import OreUnix.Lib.FirstFit
import OreUnix.Mm.FirstFit
import OreUnix.Fs.TableCopy
import OreUnix.Proc.Fork
import OreUnix.Proc.Interrupts
import OreUnix.Arch.ContextSwitch
import OreUnix.Mm.MapSpec
import OreUnix.Mm.KernelSpace
import OreUnix.Mm.DirectMap
import OreUnix.Mm.KernelHalf
import OreUnix.Mm.UserMemory
import OreUnix.Mm.Conservation
import OreUnix.Proc.Exec
import OreUnix.Proc.ExecLoad
import OreUnix.Proc.ExecStack
import OreUnix.Mm.FrameOps
import OreUnix.Mm.HeapEnd
import OreUnix.Proc.ActiveDirectory
import OreUnix.Proc.Delivery
import OreUnix.Fs.PipeWakeup
import OreUnix.Fs.CloseOnExec
import OreUnix.Fs.FdCalls
import OreUnix.Fs.AccessMode
import OreUnix.Lib.NameTree
import OreUnix.Fs.TreeCalls
import OreUnix.Fs.Orderly
import OreUnix.Fs.TreeSpec
import OreUnix.Fs.RenameSpec
import OreUnix.Mm.PmmInit
import OreUnix.Mm.KmallocContents
import OreUnix.Mm.KmallocOversize
import OreUnix.Mm.CloneFailure
import OreUnix.Mm.Giveback
import OreUnix.Mm.Translate
import OreUnix.Lib.BlockArray
import OreUnix.Drivers.Ata
import OreUnix.Fs.TreeRun
import OreUnix.Fs.LinkCounts
import OreUnix.Kernel.Initrd
import OreUnix.Proc.RoundRobin
import OreUnix.Kernel.InitrdBounds
import OreUnix.Fs.Readdir
import OreUnix.Fs.Readlink
import OreUnix.Fs.UserPaths
import OreUnix.Fs.Leaks
import OreUnix.Drivers.AtaSectors
import OreUnix.Kernel.Multiboot
import OreUnix.Proc.Credentials
