import OsCourse.Lib.Machine
import OsCourse.Barrier.Model
import OsCourse.Barrier.Invariant
import OsCourse.Barrier.Rounds
import OsCourse.Barrier.Wakeup
import OsCourse.Sched.Pass
import OsCourse.Sched.PassSpec
import OsCourse.Sched.Conserve
import OsCourse.Sched.Priority
import OsCourse.Sched.Ownership
import OsCourse.Sched.OneCpu
import OsCourse.Console.Editor
import OsCourse.Console.Screen
import OsCourse.Console.Buffer
import OsCourse.Console.Keys
import OsCourse.Console.Refinement
import OsCourse.Console.Bounds
import OsCourse.Console.Display
import OsCourse.Lib.CString
import OsCourse.Lib.Files
import OsCourse.Socket.Model
import OsCourse.Socket.Command
import OsCourse.Socket.Download
import OsCourse.Socket.Upload
import OsCourse.Locks.Sleeplock
import OsCourse.Locks.Reentrant
import OsCourse.Monitoring.Crossing
import OsCourse.Sched.Slots
import OsCourse.Sched.Kill
import OsCourse.Vm.Model
import OsCourse.Vm.Space
import OsCourse.Vm.Growproc
import OsCourse.Lib.Words
import OsCourse.Path.Model
import OsCourse.Path.Lookup
import OsCourse.Path.Exec
import OsCourse.Path.Set
import OsCourse.Lib.Family
import OsCourse.Process.Model
import OsCourse.Process.Invariant
import OsCourse.Process.Children
import OsCourse.Descendants.Model
import OsCourse.Descendants.Tree
import OsCourse.Descendants.GetChildren
import OsCourse.Lib.Ring
import OsCourse.Pipes.Fifo
import OsCourse.Lib.Block
import OsCourse.Log.Model
import OsCourse.Log.Crash
import OsCourse.Log.Commit
import OsCourse.Log.Space
import OsCourse.Ensemble.Model
import OsCourse.Ensemble.Runs
import OsCourse.Lib.Held
import OsCourse.Monitoring.Hoare
import OsCourse.Vm.Conserve
import OsCourse.Vm.Copy
import OsCourse.Fork.Model
import OsCourse.Fork.Copy
import OsCourse.Path.Refs
import OsCourse.Exec.Model
import OsCourse.Exec.Clean
import OsCourse.Exec.Returns
import OsCourse.Lib.Bitmap
import OsCourse.Fs.Model
import OsCourse.Fs.Disk
import OsCourse.Fs.Bmap
import OsCourse.Fs.Transfer
import OsCourse.Fs.Trunc
import OsCourse.Fs.Files
import OsCourse.Fs.System
import OsCourse.Fs.Account
import OsCourse.Fs.Arrays
import OsCourse.Sched.Lottery
import OsCourse.Sched.Draw
import OsCourse.Sched.Best
import OsCourse.Sched.Stof
import OsCourse.Descendants.Safety
import OsCourse.Path.SetBounds
import OsCourse.Clock.SetSleep
import OsCourse.Ensemble.Argmax
import OsCourse.Path.Namei
import OsCourse.Lib.Dlist
import OsCourse.Bio.Model
import OsCourse.Bio.Owners
import OsCourse.Bio.Lru
import OsCourse.Lib.Tally
import OsCourse.Ensemble.Vote
import OsCourse.Lib.Fields
import OsCourse.Ensemble.Messages
import OsCourse.Monitoring.Paths
import OsCourse.Monitoring.Totals
import OsCourse.Socket.Bounds
import OsCourse.Socket.Broadcast
import OsCourse.Console.Output
import OsCourse.Fs.Cpt
import OsCourse.Fs.CptDisk
import OsCourse.Sched.Ftoa
import OsCourse.Sched.Allocproc
import OsCourse.Lib.Stores
import OsCourse.Copyout.Model
import OsCourse.Copyout.Exact
import OsCourse.Copyout.Process
import OsCourse.Copyout.Arguments
import OsCourse.Copyout.Faults
import OsCourse.Files.Fds
import OsCourse.Grep.Match
import OsCourse.Grep.Lines
import OsCourse.Sh.Model
import OsCourse.Sh.Grammar
import OsCourse.Sh.Words
import OsCourse.Sh.Print
import OsCourse.Sh.Run
import OsCourse.Files.Model
import OsCourse.Files.Counts
import OsCourse.Files.Runs
import OsCourse.Lib.Slist
import OsCourse.Umalloc.Model
import OsCourse.Umalloc.FreeList
import OsCourse.Umalloc.Alloc
import OsCourse.Umalloc.Runs
