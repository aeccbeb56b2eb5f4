import Xv6.Lib.Lts
import Xv6.Param
import Xv6.Lib.Bytes
import Xv6.Lib.Hoare
import Xv6.Lib.Process
import Xv6.Bio
import Xv6.Bcache
import Xv6.Log.GroupCommit
import Xv6.Log.Reservation
import Xv6.Log.Redo
import Xv6.Log.Crash
import Xv6.Log.Buffers
import Xv6.Fs.Image
import Xv6.Fs.Content
import Xv6.Fs.Inode
import Xv6.Fs.Bmap
import Xv6.Fs.ReadWrite
import Xv6.Fs.ByteArrays
import Xv6.Fs.SharedFile
import Xv6.Kernel.Failed
import Xv6.Kernel.FailedOpen
import Xv6.Fs.Filewrite
import Xv6.Fs.Files
import Xv6.Fs.DirMap
import Xv6.Fs.Directories
import Xv6.Fs.Dir
import Xv6.Fs.Refine
import Xv6.Kernel.State
import Xv6.Kernel.Calls
import Xv6.Kernel.Alone
import Xv6.Kernel.Path
import Xv6.Kernel.LastReference
import Xv6.Kernel.Tx
import Xv6.Kernel.Refs
import Xv6.Kernel.Counts
import Xv6.Kernel.CountSteps
import Xv6.Kernel.Exact
import Xv6.Proc.Table
import Xv6.Proc.ExitWait
import Xv6.Proc.Kill
import Xv6.Proc.Sleeplock
import Xv6.Proc.Sched
import Xv6.Proc.Ticks
import Xv6.Lib.Ring
import Xv6.Proc.Pipe
import Xv6.Proc.PipeWakeup
import Xv6.Proc.KillSleep
import Xv6.Ide
import Xv6.Console
import Xv6.Vm.Pages
import Xv6.Vm.Owner
import Xv6.Vm.Functions
import Xv6.Vm.Calls
import Xv6.Vm.Runs
import Xv6.Mkfs.Write
import Xv6.Mkfs.Main
import Xv6.Mkfs.Kernel
import Xv6.Lib.Words
import Xv6.Vm.Exact
import Xv6.Vm.Walk
import Xv6.Vm.Dealloc
import Xv6.Vm.Setup
import Xv6.Vm.Grow
import Xv6.Vm.Growproc
import Xv6.Vm.Once
import Xv6.Vm.Copy
import Xv6.Vm.Fork
import Xv6.Vm.ForkFail
import Xv6.Vm.UserBytes
import Xv6.Vm.Exec
import Xv6.Vm.ExecImage
import Xv6.Vm.Copyout
import Xv6.Vm.Stack
import Xv6.Vm.Null
import Xv6.Vm.ExecAll
import Xv6.Vm.ExecFile
import Xv6.Vm.Mapping
import Xv6.Vm.Args
import Xv6.Shell.Parse
import Xv6.Shell.Tokens
import Xv6.Shell.Grammar
import Xv6.Shell.Pointers
import Xv6.Grep.Match
import Xv6.Grep.Lines
import Xv6.Umalloc
import Xv6.Memmove
import Xv6.Lib.Links
import Xv6.Mp
import Xv6.Printint
import Xv6.Lru
import Xv6.Fs.CrashSafe
import Xv6.Proc.Tree
