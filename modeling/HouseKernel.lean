import HouseKernel.Descriptors.LostUpdate
import HouseKernel.Descriptors.Offsets
import HouseKernel.DeviceTree.Tree
import HouseKernel.Driver.RootOwnership
import HouseKernel.El0.Interruption
import HouseKernel.El0.Reaping
import HouseKernel.El0.Sessions
import HouseKernel.FileSystem.BlkTree
import HouseKernel.FileSystem.CrashCommit
import HouseKernel.FileSystem.RamInterleaving
import HouseKernel.FileSystem.SaveRestore
import HouseKernel.Heap.Soundness
import HouseKernel.Initramfs.RoundTrip
import HouseKernel.Initramfs.Unpack
import HouseKernel.Ipc.Serving
import HouseKernel.Linker.Dependencies
import HouseKernel.Linker.InitOrder
import HouseKernel.Linker.Patches
import HouseKernel.Loader.Patching
import HouseKernel.Net.Checksum
import HouseKernel.Net.Dns
import HouseKernel.Net.Socket
import HouseKernel.Pages.Allocation
import HouseKernel.Smp.Hotplug
import HouseKernel.Threads.Balance
import HouseKernel.Threads.Exclusion
import HouseKernel.Threads.Offline
import HouseKernel.Threads.Rebalance
import HouseKernel.Threads.Stranding
import HouseKernel.Userspace.ArgStack
import HouseKernel.Userspace.BrkGrow
import HouseKernel.Userspace.Constructors
import HouseKernel.Userspace.CowRefs
import HouseKernel.Userspace.DemandPaging
import HouseKernel.Userspace.DynamicPages
import HouseKernel.Userspace.EntryBreak
import HouseKernel.Userspace.ForkBreak
import HouseKernel.Userspace.ForkRollback
import HouseKernel.Userspace.PreparedImage
import HouseKernel.Userspace.ImageSteps
import HouseKernel.Userspace.PageBudget
import HouseKernel.Userspace.PagerAtomicity
import HouseKernel.Userspace.ParkLoop
import HouseKernel.Userspace.PendingReply
import HouseKernel.Userspace.SvcMask
import HouseKernel.Userspace.Trampoline
import HouseKernel.Userspace.Unmapping
import HouseKernel.Userspace.UserReads
import HouseKernel.Virtio.BlockGrants
import HouseKernel.Virtio.Completion
import HouseKernel.Virtio.ReceivedData
import HouseKernel.VirtualMemory.Asids
import HouseKernel.VirtualMemory.BootMap
import HouseKernel.VirtualMemory.DriverRoot
import HouseKernel.VirtualMemory.LockedShootdown
import HouseKernel.VirtualMemory.MapRefinement
import HouseKernel.VirtualMemory.Reservations
import HouseKernel.VirtualMemory.Shootdown
import HouseKernel.FileSystem.Confinement
import HouseKernel.FileSystem.BoundedLoad
import HouseKernel.Irq.Ring
import HouseKernel.El0.BumpBlocks
import HouseKernel.Console.History
import HouseKernel.Console.Session
import HouseKernel.LibC.Events
import HouseKernel.LibC.Pipes
import HouseKernel.Smp.Spinlock
import HouseKernel.Programs.Echo
import HouseKernel.Net.Lease
import HouseKernel.FileSystem.NamespaceRuns
import HouseKernel.Ipc.Capability
import HouseKernel.Userspace.Sched
