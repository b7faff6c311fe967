import Os377.Lib.Bytes
import Os377.Lib.CString
import Os377.Lib.Conserving
import Os377.Lib.Count
import Os377.Lib.Custody
import Os377.Lib.InputStream
import Os377.Lib.Intervals
import Os377.Lib.Joining
import Os377.Lib.Links
import Os377.Lib.Loop
import Os377.Lib.Merging
import Os377.Lib.Mutex
import Os377.Lib.PriorityQueue
import Os377.Lib.Ranges
import Os377.Lib.RedoLog
import Os377.Lib.Ring
import Os377.Lib.Runs
import Os377.Lib.Schedule
import Os377.Lib.Service
import Os377.Lib.ShortestRemaining
import Os377.Lib.Stretches
import Os377.Lib.Strtok
import Os377.Lib.TSys
import Os377.Lib.Transactions
import Os377.Lib.Turns
import Os377.Lib.WaitingLine
import Os377.Lib.WordStream
import Os377.Lib.WrapInt
import Os377.ProdCon.BoundedBuffer
import Os377.ProdCon.Leaving
import Os377.ProdCon.Monitor
import Os377.ProdCon.Numbering
import Os377.ProdCon.Program
import Os377.ProdCon.ProgramInv
import Os377.ProdCon.Progress
import Os377.ProdCon.Reruns
import Os377.ProdCon.Schedules
import Os377.ProdCon.Shutdown
import Os377.ProdCon.Workers
import Os377.Sched.Compare
import Os377.Sched.IntClock
import Os377.Sched.Contract
import Os377.Sched.Dispatched
import Os377.Sched.Fairness
import Os377.Sched.Nonpreemptive
import Os377.Sched.NonpreemptiveCorrect
import Os377.Sched.Process
import Os377.Sched.RoundRobin
import Os377.Sched.RoundRobinCorrect
import Os377.Sched.Simultaneous
import Os377.Sched.Stcf
import Os377.Sched.StcfCorrect
import Os377.Sched.Termination
import Os377.Sched.Timetable
import Os377.Sched.Workload
import Os377.Malloc.Calls
import Os377.Malloc.Coalesce
import Os377.Malloc.Frame
import Os377.Malloc.Free
import Os377.Malloc.Heap
import Os377.Malloc.Requests
import Os377.Malloc.Reset
import Os377.Malloc.Reuse
import Os377.Malloc.Space
import Os377.Malloc.Tiling
import Os377.Salloc.Allocator
import Os377.Salloc.FirstFit
import Os377.Salloc.FreeList
import Os377.Salloc.Reject
import Os377.Salloc.WorstBest
import Os377.NoLock.Accounting
import Os377.NoLock.Pushes
import Os377.NoLock.Sequential
import Os377.NoLock.Size
import Os377.NoLock.Stack
import Os377.Fs.Access
import Os377.Fs.Behind
import Os377.Fs.Create
import Os377.Fs.Disk
import Os377.Fs.Lookup
import Os377.Fs.Names
import Os377.Fs.Ownership
import Os377.Fs.ReadWrite
import Os377.Fs.Script
import Os377.Fs.Table
import Os377.Xv6.AddressSpace
import Os377.Xv6.CloneFailure
import Os377.Xv6.ClonePid
import Os377.Xv6.GrepLines
import Os377.Xv6.Growth
import Os377.Xv6.Lifetime
import Os377.Xv6.LockPointer
import Os377.Xv6.Log
import Os377.Xv6.LogCrash
import Os377.Xv6.LogFull
import Os377.Xv6.LogSpace
import Os377.Xv6.Paging
import Os377.Xv6.Pipe
import Os377.Xv6.PipeFlow
import Os377.Xv6.PipeLines
import Os377.Xv6.PipeWakeup
import Os377.Xv6.ProcTable
import Os377.Xv6.SharedSize
import Os377.Xv6.ShCommand
import Os377.Xv6.TicketLock
import Os377.Xv6.UmallocRuns
import Os377.Xv6.Wakeup
import Os377.MergeSort.Processes
import Os377.MergeSort.Threads
import Os377.Inverter.Build
import Os377.Inverter.Index
import Os377.Inverter.IntIndex
import Os377.Shell.Tsh
import Os377.Lib.Bitmap
import Os377.Lib.Holdings
import Os377.Xv6.Blocks
import Os377.Xv6.Inode
import Os377.Xv6.InodeData
import Os377.Xv6.InodeTable
import Os377.Lib.Files
import Os377.Xv6.InodeWrites
