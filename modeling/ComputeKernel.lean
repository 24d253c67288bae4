import ComputeKernel.Boot.Pipeline
import ComputeKernel.Drivers.Probing
import ComputeKernel.Fs.Superblock
import ComputeKernel.Ipc.Parties
import ComputeKernel.Kernel.Answers
import ComputeKernel.Kernel.Counters
import ComputeKernel.Kernel.Frames
import ComputeKernel.Kernel.Heap
import ComputeKernel.Kernel.Noninterference
import ComputeKernel.Kernel.Reaping
import ComputeKernel.Kernel.Simulation
import ComputeKernel.Kernel.Zombies
import ComputeKernel.Memory.Access
import ComputeKernel.Memory.FirstFit
import ComputeKernel.Memory.Kmalloc
import ComputeKernel.Memory.Loading
import ComputeKernel.Modules.Loadable
import ComputeKernel.Modules.Unloading
import ComputeKernel.Sched.Removal
import ComputeKernel.Sched.Running
import ComputeKernel.Sched.Share
import ComputeKernel.Security.Access
import ComputeKernel.Security.Pointers
import ComputeKernel.Tasks.Allocation
import ComputeKernel.Vfs.Appending
import ComputeKernel.Vfs.Clients
import ComputeKernel.Vfs.Mounts
import ComputeKernel.Vfs.Persistence
import ComputeKernel.Vfs.Remount
import ComputeKernel.Vfs.Replacing
import ComputeKernel.Vfs.Twins
