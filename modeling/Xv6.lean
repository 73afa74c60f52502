import Xv6.RedoLogCrash
import Xv6.LogAdmission
import Xv6.BcacheArray
import Xv6.Dup2
import Xv6.PtableForest
import Xv6.PtableInit
import Xv6.SchedCpus
import Xv6.KillLoops
import Xv6.Sleep1
import Xv6.Pipe
import Xv6.ProcTimes
import Xv6.ConsoleLocks
import Xv6.ConsoleLine
import Xv6.InodeLocks
import Xv6.PathLookup
import Xv6.FsDangling
import Xv6.FsCounts
import Xv6.BlocksRuns
import Xv6.BlocksThrough
import Xv6.IcacheAtomic
import Xv6.DirectoryMap
import Xv6.Levels
import Xv6.Reap
import Xv6.UmallocCalls
import Xv6.ShAccepts
import Xv6.ShMain
import Xv6.ShRedirs
import Xv6.SysSleep
import Xv6.UserArgs
import Xv6.ExecCopyout
import Xv6.Grep
import Xv6.Memmove
import Xv6.Decimal
import Xv6.Mp
import Xv6.StateList
import Xv6.PtablePriority
