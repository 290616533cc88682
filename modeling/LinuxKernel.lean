import LinuxKernel.Lib.Run
import LinuxKernel.Lib.PrioArray
import LinuxKernel.Sched.Types
import LinuxKernel.Lib.Ring
import LinuxKernel.Sched.Kernel
import LinuxKernel.Sched.Wrr
import LinuxKernel.Sched.Rt
import LinuxKernel.Sched.Core
import LinuxKernel.Sched.System
import LinuxKernel.Sched.RtInv
import LinuxKernel.Sched.Tasks
import LinuxKernel.Sched.TaskInv
import LinuxKernel.Sched.Micro
import LinuxKernel.Sched.Frames
import LinuxKernel.Sched.QueueInv
import LinuxKernel.Sched.Pick
import LinuxKernel.Sched.Fifo
import LinuxKernel.Sched.FastPath
import LinuxKernel.Sched.WrrStep
import LinuxKernel.Sched.Slice
import LinuxKernel.Sched.Order
import LinuxKernel.Sched.Policy
import LinuxKernel.Sched.Accounting
import LinuxKernel.Sched.Calm
import LinuxKernel.Sched.Preempt
import LinuxKernel.Lib.RoundRobin
import LinuxKernel.Romfs.Listing
import LinuxKernel.Sched.Share
import LinuxKernel.Romfs.Agree
import LinuxKernel.Romfs.Params
import LinuxKernel.Romfs.Vfs
import LinuxKernel.Romfs.History
import LinuxKernel.Lib.Memory
import LinuxKernel.Lib.Text
import LinuxKernel.Proc.Kernel
import LinuxKernel.Mtest.Mtest
import LinuxKernel.Mtest.Command
import LinuxKernel.Mtest.Access
import LinuxKernel.Watch.Process
import LinuxKernel.Watch.Watch
import LinuxKernel.Watch.Report
import LinuxKernel.Watch.Calls
import LinuxKernel.Watch.Readers
import LinuxKernel.Watch.Lifetime
import LinuxKernel.Watch.Pages
import LinuxKernel.Maptest.Maptest
import LinuxKernel.Mtest.Errors
import LinuxKernel.Romfs.WholeFile
import LinuxKernel.Romfs.Symlink
import LinuxKernel.Lib.Walk
import LinuxKernel.Romfs.Endless
import LinuxKernel.Romfs.Failures
import LinuxKernel.Ctx.Counts
import LinuxKernel.Sched.Interval
import LinuxKernel.Watch.Measure
import LinuxKernel.Watch.References
import LinuxKernel.Proc.Reads
import LinuxKernel.Mtest.Buffers
import LinuxKernel.Lib.LinkedList
import LinuxKernel.Sched.RunList
import LinuxKernel.Bench.IoBound
import LinuxKernel.Bench.MixBound
import LinuxKernel.Wait.Queue
import LinuxKernel.Wait.Completion
import LinuxKernel.Lib.Tree
import LinuxKernel.Sched.Groups
import LinuxKernel.Sched.Admission
import LinuxKernel.Sched.RtBudget
import LinuxKernel.Sched.RtSupply
import LinuxKernel.Lib.Mean
import LinuxKernel.Load.Average
import LinuxKernel.Load.Global
import LinuxKernel.Load.Periods
import LinuxKernel.Load.CpuLoad
import LinuxKernel.Romfs.Mounted
import LinuxKernel.Fork.CopyProcess
import LinuxKernel.Fork.Unwind
import LinuxKernel.Lib.Waiting
import LinuxKernel.Smp.Claims
import LinuxKernel.Smp.Invariant
import LinuxKernel.Smp.Runs
