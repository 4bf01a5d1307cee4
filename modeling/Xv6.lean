import Xv6.Fraction
import Xv6.Lib.Heap
import Xv6.Lib.Ring
import Xv6.Lib.Reach
import Xv6.Sched.Stride
import Xv6.Sched.Queue
import Xv6.Sched.State
import Xv6.Sched.Mlfq
import Xv6.Sched.MlfqSpec
import Xv6.Sched.Round
import Xv6.Sched.RoundSpec
import Xv6.Sched.System
import Xv6.Sched.Inv
import Xv6.Sched.InvProc
import Xv6.Sched.InvFork
import Xv6.Sched.InvShare
import Xv6.Sched.InvRound
import Xv6.Sched.InvRun
import Xv6.Sched.Share
import Xv6.Sched.Idle
import Xv6.Sched.Order
import Xv6.Sched.OrderRun
import Xv6.Lib.Count
import Xv6.Rwlock.Lock
import Xv6.Rwlock.Exclusion
import Xv6.Sched.Ticks
import Xv6.Sched.ForkPreempt
import Xv6.Lwp.State
import Xv6.Lwp.Calls
import Xv6.Lwp.Wake
import Xv6.Lwp.Exit
import Xv6.Lwp.Tid
import Xv6.Lwp.Grow
import Xv6.Lib.Bytes
import Xv6.Fs.Layout
import Xv6.Fs.Trunc
import Xv6.Fs.Bmap
import Xv6.Fs.Mkfs
import Xv6.Fs.Image
import Xv6.Lib.StrideSched
import Xv6.Sched.Fair
import Xv6.Sched.Cap
import Xv6.Lib.Splice
import Xv6.Lib.PartialImage
import Xv6.Fs.Tree
import Xv6.Fs.BmapSpec
import Xv6.Fs.Write
import Xv6.Lib.Rotate
import Xv6.Sched.Select
import Xv6.Lib.WeakHeap
import Xv6.Lib.Fifo
import Xv6.Sched.QueueRun
import Xv6.Sched.Remove
import Xv6.User.Ls
import Xv6.Lib.Word
import Xv6.Lib.Search
import Xv6.Lwp.Bitmap
import Xv6.Fs.Room
import Xv6.Fs.File
import Xv6.Lib.CountRing
import Xv6.Pipe.Pipe
import Xv6.Pipe.Refine
import Xv6.Log.Commit
import Xv6.Log.Trans
import Xv6.Lib.DList
import Xv6.Bio.Cache
import Xv6.Bio.Refine
import Xv6.Bio.Safety
import Xv6.Fs.Dir
import Xv6.Fs.Path
import Xv6.Fs.DirMap
import Xv6.Fs.Contents
import Xv6.Sched.Race
