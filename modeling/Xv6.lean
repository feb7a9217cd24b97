import Xv6.Fs.Deadlock
import Xv6.Fs.Ide
import Xv6.Fs.MkfsKernel
import Xv6.Ipc.Console
import Xv6.Ipc.Files
import Xv6.Ipc.Pipe
import Xv6.Sched.Dispatch
import Xv6.Sched.Inswapper
import Xv6.Sched.Reap
import Xv6.Sched.Spinlock
import Xv6.Sh.Parser
import Xv6.Syscall.Args
import Xv6.User.HeapRuns
import Xv6.User.Match
import Xv6.User.Memmove
import Xv6.Vm.Allocated
import Xv6.Vm.Deallocshm
import Xv6.Vm.ExecArgs
import Xv6.Vm.Growproc
import Xv6.Vm.Holes
import Xv6.Vm.Leak
import Xv6.Vm.Perms
import Xv6.Vm.Sleep
