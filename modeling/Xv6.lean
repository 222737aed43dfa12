import Xv6.Log.Recovery
import Xv6.Log.Admission
import Xv6.Process.Accounting
import Xv6.Process.Kill
import Xv6.Process.Reap
import Xv6.Uniq.Leak
import Xv6.Kern.Names
import Xv6.Pipes.Wakeup
import Xv6.Bio.Supply
import Xv6.Process.Cpus
import Xv6.Kern.Shared
import Xv6.Uniq.Within
import Xv6.Mkfs.Mount
import Xv6.Vm.Syscall
import Xv6.Sh.Redirection
import Xv6.Grep.Buffer
import Xv6.Uniq.Groups
import Xv6.Umalloc.Program
import Xv6.Console
import Xv6.Vm.Life
