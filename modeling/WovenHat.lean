import WovenHat.Verification.BlockCache.Refinement
import WovenHat.Verification.Vfs.Descriptors
import WovenHat.Verification.Vfs.Listing
import WovenHat.Verification.Vfs.PathBuffers
import WovenHat.Verification.Task.LockDiscipline
import WovenHat.Verification.Fat32.FreeSpace
import WovenHat.Verification.Fat32.NoSpace
import WovenHat.Verification.Fat32.Deletion
import WovenHat.Verification.Heap.Reuse
import WovenHat.Verification.Task.DeadTasks
import WovenHat.Verification.Task.Pager
import WovenHat.Verification.Task.Teardown
import WovenHat.Verification.Task.Zombies
import WovenHat.Verification.Pipes.Writes
import WovenHat.Verification.Ipc.Delivery
import WovenHat.Verification.PageCache.Reads
import WovenHat.Verification.BlockIo.Delivery
import WovenHat.Verification.Swap.Contents
import WovenHat.Verification.Vfs.Coherence
import WovenHat.Verification.Paging.ReadOnly
import WovenHat.Verification.Paging.Release
import WovenHat.Verification.Smp.Shootdown
import WovenHat.Verification.Task.FailedCalls
import WovenHat.Verification.Task.Capabilities
import WovenHat.Verification.Task.Priorities
import WovenHat.Verification.Task.Signals
import WovenHat.Verification.VirtioNet
