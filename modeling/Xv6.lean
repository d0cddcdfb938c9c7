import Xv6.Bio.Integrity
import Xv6.Console.Discipline
import Xv6.Disk.Protocol
import Xv6.Fs.Coherence
import Xv6.Fs.FailedWrite
import Xv6.Fs.Filewrite
import Xv6.Fs.Path
import Xv6.Grep.Stream
import Xv6.Interrupts.Nesting
import Xv6.Kernel.Arguments
import Xv6.Kernel.Mappings
import Xv6.Kernel.PipeEnds
import Xv6.Kernel.ReadBounds
import Xv6.Kernel.Rights
import Xv6.Kernel.WriteBack
import Xv6.Links.Adding
import Xv6.Links.Tree
import Xv6.Logging.Capacity
import Xv6.Logging.GroupCommit
import Xv6.Logging.Space
import Xv6.Mkfs.Mounted
import Xv6.Pipes.Wakeup
import Xv6.Procs.Pids
import Xv6.Procs.Reaping
import Xv6.Sched.Wakeups
import Xv6.Shell.Runcmd
import Xv6.Sync.SleepLock
import Xv6.Umalloc.Amount
import Xv6.Vm.Refine
