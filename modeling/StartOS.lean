import StartOS.Lib.ByteMem
import StartOS.Lib.DyadicBlocks
import StartOS.Lib.Linked
import StartOS.Lib.RadixTree
import StartOS.Lib.Hoare
import StartOS.Kernel.Basic
import StartOS.Kernel.Memmove
import StartOS.Memory.MemAllocator
import StartOS.Memory.BuddyAllocator
import StartOS.Memory.BuddyInvariant
import StartOS.Memory.BuddyOps
import StartOS.Memory.BuddyRun
import StartOS.Memory.OperatorNew
import StartOS.Memory.PageTable
import StartOS.Memory.PageTree
import StartOS.Memory.PageMap
import StartOS.Fs.Disk
import StartOS.Fs.BufferLayer
import StartOS.Fs.Fat32
import StartOS.Fs.FatChain
import StartOS.Fs.FatBmap
import StartOS.Fs.FatRun
import StartOS.Fs.BufferSpec
import StartOS.Fs.BufferRun
import StartOS.Fs.DataArea
import StartOS.Fs.FileBytes
import StartOS.Fs.FileOps
import StartOS.Fs.FileRun
import StartOS.Fs.VfsFile
import StartOS.Fs.FatDir
import StartOS.Fs.Session
import StartOS.Fs.DirOps
import StartOS.Fs.DirScan
import StartOS.Fs.FsOp
import StartOS.Fs.Coherence
import StartOS.Fs.Durability
import StartOS.Fs.EntryFrame
import StartOS.Fs.GeometryFault
import StartOS.Fs.Conforming
import StartOS.Fs.FreeChain
import StartOS.Fs.FatEntry
import StartOS.Fs.AllocBound
import StartOS.Fs.SectorAddress
import StartOS.Fs.BufferRelease
import StartOS.Fs.FatTime
import StartOS.Fs.ShortName
import StartOS.Fs.ReadDir
import StartOS.Fs.NameBounds
import StartOS.Fs.ReadQuiet
import StartOS.Fs.LongName
import StartOS.Fs.NameRoundTrip
import StartOS.Fs.CreateReturns
import StartOS.Os.Task
import StartOS.Os.Time
import StartOS.Device.Clock
import StartOS.Os.Mmap
import StartOS.Os.MapLedger
import StartOS.Lib.Slots
import StartOS.Lib.Ring
import StartOS.Fs.Pipe
import StartOS.Fs.PipeRun
import StartOS.Fs.FailedTransfer
import StartOS.Device.Console
import StartOS.Device.Virtio
import StartOS.Device.VirtioOwned
import StartOS.Device.VirtioRings
import StartOS.Device.VirtioDriver
import StartOS.Device.VirtioSafe
import StartOS.Os.Exec
import StartOS.Os.ExecFailure
import StartOS.Os.Descriptors
import StartOS.Os.FileRefs
import StartOS.Os.DescriptorRun
import StartOS.Os.ArgCheck
import StartOS.Os.Clone
import StartOS.Memory.AddressSpace
import StartOS.Memory.AddressMap
import StartOS.Os.Unmap
import StartOS.Os.FreeWalk
import StartOS.Os.FreeTable
import StartOS.Os.Growth
import StartOS.Os.NewTable
import StartOS.Os.PageFault
import StartOS.Os.CopyPages
import StartOS.Os.Ownership
import StartOS.Os.SleepLock
import StartOS.Os.SleepLockSafe
import StartOS.Os.ProcTable
import StartOS.Os.ProcTree
import StartOS.Os.ProcRun
import StartOS.Os.SlotRoom
import StartOS.Os.ProcCalls
import StartOS.Fs.PathWalk
import StartOS.Fs.DirentBounds
import StartOS.Fs.DirFormat
import StartOS.Fs.Filling
import StartOS.Fs.ListingRun
import StartOS.Fs.DeviceListing
import StartOS.Fs.Enumerate
import StartOS.Fs.PathScan
import StartOS.Fs.PathRefs
import StartOS.Os.CopyOut
import StartOS.Os.ExecRun
import StartOS.Os.ExecStack
import StartOS.Os.UserCopy
import StartOS.Os.UserTransfer
import StartOS.Os.UserString
import StartOS.Os.VectoredIo
import StartOS.Os.OpenAt
import StartOS.Os.CreateByPath
import StartOS.Os.Break
import StartOS.Os.Munmap
import StartOS.Os.ForkFailure
import StartOS.Os.ForkChild
import StartOS.Os.TidySlots
import StartOS.Os.Recycle
import StartOS.Os.VmaPool
import StartOS.Os.CloseFiles
import StartOS.Os.FilesSame
import StartOS.Os.CallTurns
import StartOS.Os.ForkRun
import StartOS.Os.ExitTotal
import StartOS.Os.ExitRun
import StartOS.Os.WorkingDir
import StartOS.Os.PathBuffers
import StartOS.Os.MountTable
import StartOS.Os.ExecArgs
import StartOS.Os.ExecArgsSafe
import StartOS.Sstl.Map
import StartOS.Sstl.MapSpec
import StartOS.Sstl.MapRun
import StartOS.Fs.DirRead
import StartOS.Fs.DirLookup
import StartOS.Lib.LabelledRun
import StartOS.Os.TrapKernel
import StartOS.Os.Switch
import StartOS.Os.SpinLockSafe
import StartOS.Fs.DirWrite
import StartOS.Fs.DirUnlink
import StartOS.Fs.DirCreate
import StartOS.Lib.NameStore
import StartOS.Fs.DirStore
