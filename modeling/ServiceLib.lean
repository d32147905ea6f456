import ServiceLib.Framework.RecursiveMutex
import ServiceLib.Framework.Transition
import ServiceLib.Pool.Cancel
import ServiceLib.Pool.Ran
import ServiceLib.Pool.Conservation
import ServiceLib.Pool.SelfWait
import ServiceLib.Pool.Stop
import ServiceLib.Pool.Strand
import ServiceLib.Pool.Wakeup
import ServiceLib.Pool.Ongoing
import ServiceLib.Pool.Load
import ServiceLib.Pool.Placement
import ServiceLib.Pool.Drain
import ServiceLib.Pool.Joined
import ServiceLib.Scheduler.Deadlock
import ServiceLib.Scheduler.Dispatch
import ServiceLib.Scheduler.Gone
import ServiceLib.Scheduler.Global
import ServiceLib.Scheduler.LifeCycle
import ServiceLib.Watch.Sound
import ServiceLib.Watch.Life
import ServiceLib.Watch.Notified
import ServiceLib.Watch.Reentrant
import ServiceLib.Watch.Atomic
import ServiceLib.Framework.Greedy
import ServiceLib.Framework.Nesting
import ServiceLib.Framework.WaitPoint
import ServiceLib.Model.Callbacks
import ServiceLib.Pool.Balance
import ServiceLib.Pool.Awaited
import ServiceLib.Pool.Signals
import ServiceLib.Scheduler.Effect
import ServiceLib.Scheduler.Service
import ServiceLib.Scheduler.Served
import ServiceLib.Scheduler.Completion
import ServiceLib.Scheduler.Agree
import ServiceLib.Framework.Refinement
import ServiceLib.Framework.Servers
import ServiceLib.Pool.Refines
import ServiceLib.Pool.Ready
import ServiceLib.Pool.Response
import ServiceLib.Pool.StartUp
import ServiceLib.Scheduler.SyncCall
import ServiceLib.Scheduler.Notify
import ServiceLib.Pool.Lifetime
import ServiceLib.Pool.Hung
import ServiceLib.Scheduler.AsyncCall
import ServiceLib.Scheduler.Release
import ServiceLib.Scheduler.Sweep
import ServiceLib.Framework.LockTable
import ServiceLib.Scheduler.LockOrder
import ServiceLib.Pool.Statistics
import ServiceLib.Framework.Execution
import ServiceLib.Pool.Rest
import ServiceLib.Pool.Settled
import ServiceLib.Pool.Returns
