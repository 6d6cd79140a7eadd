import OsLabs.Concurrent.Machine
import OsLabs.Concurrent.SysV
import OsLabs.Concurrent.Ring
import OsLabs.Concurrent.Count
import OsLabs.Concurrent.Tickets
import OsLabs.Letters
import OsLabs.PcServer.Model
import OsLabs.PcServer.Invariant
import OsLabs.PcServer.Fifo
import OsLabs.Wr.Model
import OsLabs.Wr.Invariant
import OsLabs.Wr.Monitor
import OsLabs.Wr.Priority
import OsLabs.Bakery.Reads
import OsLabs.Bakery.Server
import OsLabs.Bakery.Exclusion
import OsLabs.Bakery.Order
import OsLabs.Bakery.Choosing
import OsLabs.Bakery.ChoosingExclusion
import OsLabs.Winwr.Counters
import OsLabs.Winwr.Decisions
import OsLabs.Winwr.Exclusion
import OsLabs.Winwr.Wakeup
import OsLabs.PcRpc.Dispatch
import OsLabs.PcRpc.Identity
import OsLabs.PcRpc.Clients
import OsLabs.PcRpc.Process
import OsLabs.PcRpc.Consumption
import OsLabs.TmpWr.Model
import OsLabs.TmpWr.CrashSafety
import OsLabs.Concurrent.ReadersWriters
import OsLabs.Wr.Encodings
import OsLabs.Concurrent.Owner
import OsLabs.Pc.Model
import OsLabs.Pc.Accounting
import OsLabs.Obakery.Model
import OsLabs.Obakery.Tickets
import OsLabs.Obakery.Refusal
import OsLabs.Bytes.CString
import OsLabs.Dict.Model
import OsLabs.Dict.Bag
import OsLabs.Dict.Capacity
import OsLabs.Files.FileSystem
import OsLabs.Daemon.Model
import OsLabs.Daemon.Steps
import OsLabs.Daemon.Invariant
import OsLabs.Daemon.SingleInstance
import OsLabs.Daemon.TestBuild
import OsLabs.Concurrent.Serial
import OsLabs.Dict.Threads
import OsLabs.Dict.Atomicity
import OsLabs.PcServer.Progress
import OsLabs.Bakery.Progress
import OsLabs.Wr.LostUpdate
import OsLabs.Winwr.LostUpdate
import OsLabs.Winwr.Arrival
import OsLabs.Obakery.Slots
import OsLabs.Obakery.Client
import OsLabs.Obakery.Agreement
import OsLabs.Parent.Model
import OsLabs.Parent.CleanUp
import OsLabs.Concurrent.Section
import OsLabs.Concurrent.BoundedBuffer
import OsLabs.PcLast.Model
import OsLabs.PcLast.Overrun
import OsLabs.Bytes.Words
import OsLabs.LesPc.Model
import OsLabs.LesPc.Invariant
import OsLabs.LesPc.Drift
import OsLabs.Pc.Bounds
import OsLabs.Bytes.Scan
import OsLabs.Daemon.Reread
import OsLabs.Concurrent.Signals
import OsLabs.Hangup.Model
import OsLabs.Hangup.Window
import OsLabs.Fuel
import OsLabs.Dict.Client
import OsLabs.Concurrent.Termination
import OsLabs.Winwr.Shutdown
import OsLabs.Wr.Shutdown
import OsLabs.Pc.Shutdown
import OsLabs.Bakery.ChoosingOrder
import OsLabs.Bakery.ChoosingProgress
import OsLabs.Dict.Commands
import OsLabs.Dict.Session
import OsLabs.Bytes.Xdr
import OsLabs.Obakery.Wire
import OsLabs.Obakery.Remote
import OsLabs.RpcPc.Model
import OsLabs.RpcPc.DoubleFetch
import OsLabs.Shmop.Model
import OsLabs.Shmop.Handshake
import OsLabs.RealMode.Flags
import OsLabs.RealMode.Machine
import OsLabs.RealMode.Refinement
import OsLabs.RealMode.Stack
import OsLabs.RealMode.Sweep
import OsLabs.Int8h.Listing
import OsLabs.Int8h.Handler
import OsLabs.Int8h.Ending
import OsLabs.Int8h.Area
import OsLabs.Int8h.Tick
import OsLabs.Int8h.Interrupt
import OsLabs.Int8h.Clock
import OsLabs.Bytes.Stream
import OsLabs.Hangup.Reload
import OsLabs.Pipe.Books
import OsLabs.Pipe.Delivery
import OsLabs.TmpPc.Killed
import OsLabs.Apue
import OsLabs.Daemon.Daemonize
