import Xv6.Fs.Transact
import Xv6.Log.Commit
import Xv6.Log.Reserve
import Xv6.Sched.Dispatch
import Xv6.Proc.Locks
import Xv6.Proc.Remap
import Xv6.Sync.Guard
import Xv6.Fs.DirMap
import Xv6.Mkfs.Holes
import Xv6.Bio.Coherent
import Xv6.Fs.Path
import Xv6.Proc.Inherit
import Xv6.Pipe.Wakeup
import Xv6.Console.Discipline
import Xv6.Ide.Queue
import Xv6.Sh.Print
import Xv6.Malloc.Covered
import Xv6.Icache.Orphans
import Xv6.Sched.Least
import Xv6.Sched.Kills
import Xv6.Proc.Exits
import Xv6.Proc.Joins
import Xv6.Proc.Pointers
import Xv6.Vm.Pages
import Xv6.Proc.Load
import Xv6.Ulib.Memmove
