import LinuxMemory.FreelistLayout
import LinuxMemory.FreelistCalls
import LinuxMemory.FreelistRuns
import LinuxMemory.FreelistGuarantees
import LinuxMemory.FreelistCanonical
import LinuxMemory.Buddy
import LinuxMemory.BuddyLayout
import LinuxMemory.BuddyCalls
import LinuxMemory.BuddyRuns
import LinuxMemory.BuddyGuarantees
import LinuxMemory.BuddyCanonical
import LinuxMemory.Slab
import LinuxMemory.SlabLayout
import LinuxMemory.SlabCalls
import LinuxMemory.SlabRuns
import LinuxMemory.Futex
import LinuxMemory.FutexSafety
import LinuxMemory.FutexWakeups
import LinuxMemory.Ownership
import LinuxMemory.Bump
import LinuxMemory.ObjectPool
import LinuxMemory.PauseLoop
import LinuxMemory.SignalHandler
import LinuxMemory.Sigchld
import LinuxMemory.WaitLoops
import LinuxMemory.Capacity
import LinuxMemory.Eventfd
import LinuxMemory.SlabSizes
import LinuxMemory.SlabPeak
import LinuxMemory.SlabFrame
import LinuxMemory.FreelistFrame
import LinuxMemory.BuddyFrame
import LinuxMemory.PoolPlacement
import LinuxMemory.MemoryHierarchy
import LinuxMemory.ProcText
import LinuxMemory.ProcMaps
import LinuxMemory.ProcSmaps
import LinuxMemory.HugePageReport
import LinuxMemory.PipeRelay
import LinuxMemory.PriorityQueue
import LinuxMemory.MessageQueue
import LinuxMemory.Publication
import LinuxMemory.Descriptors
import LinuxMemory.DescriptorPassing
import LinuxMemory.Daemonise
import LinuxMemory.Userfault
import LinuxMemory.CloneCounter
import LinuxMemory.MachineCode
import LinuxMemory.JitPage
import LinuxMemory.ProcStatus
import LinuxMemory.MappingCount
import LinuxMemory.InitialStack
import LinuxMemory.BuddyDump
import LinuxMemory.FreelistReuse
import LinuxMemory.ThreadKey
import LinuxMemory.NamedPipe
import LinuxMemory.SocketPair
import LinuxMemory.OomScore
import LinuxMemory.SlabMain
import LinuxMemory.Mappings
import LinuxMemory.SharedMapping
import LinuxMemory.FileMapping
import LinuxMemory.ForkedCounter
