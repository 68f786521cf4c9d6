import ShioSylar.Lib.Run
import ShioSylar.Lib.OrderedSet
import ShioSylar.Lib.Words
import ShioSylar.Lib.Directories
import ShioSylar.Util.Mkdir
import ShioSylar.Timer.Lifecycle
import ShioSylar.Timer.Deadline
import ShioSylar.Timer.Expired
import ShioSylar.Timer.Rollback
import ShioSylar.Timer.Arming
import ShioSylar.Timer.Absorption
import ShioSylar.Scheduler.Queue
import ShioSylar.Scheduler.Handshake
import ShioSylar.Scheduler.Tasks
import ShioSylar.Scheduler.Fresh
import ShioSylar.Scheduler.Stopping
import ShioSylar.Scheduler.Affinity
import ShioSylar.Scheduler.Switching
import ShioSylar.Scheduler.Shutdown
import ShioSylar.Scheduler.SwitchTo
import ShioSylar.IOManager.Delivery
import ShioSylar.IOManager.StaleReport
import ShioSylar.IOManager.Growth
import ShioSylar.IOManager.Wakeups
import ShioSylar.IOManager.Stopping
import ShioSylar.IOManager.Cancel
import ShioSylar.IOManager.CancelAll
import ShioSylar.IOManager.Views
import ShioSylar.IOManager.WaitTimeout
import ShioSylar.Hook.FdTable
import ShioSylar.Hook.Sleep
import ShioSylar.Hook.Setters
import ShioSylar.Hook.Calls
import ShioSylar.Hook.Slots
import ShioSylar.Hook.Law
import ShioSylar.Hook.SockTimeout
import ShioSylar.Hook.Timeout
import ShioSylar.Hook.Close
import ShioSylar.Hook.Reuse
import ShioSylar.Hook.Recycle
import ShioSylar.Hook.Connect
import ShioSylar.Hook.Passthrough
import ShioSylar.Config.Var
import ShioSylar.Config.Codec
import ShioSylar.Config.Observed
import ShioSylar.Config.Load
import ShioSylar.Logger.Inherit
import ShioSylar.Logger.Reload
import ShioSylar.Logger.Directives
import ShioSylar.Logger.Format
import ShioSylar.Logger.Escape
import ShioSylar.Logger.Dump
import ShioSylar.Logger.Records
