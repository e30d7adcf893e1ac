import UbbdKernel.Basic
import UbbdKernel.Framework.Lts
import UbbdKernel.Framework.Potential
import UbbdKernel.Framework.Channel
import UbbdKernel.Framework.Bytes
import UbbdKernel.Framework.Circular
import UbbdKernel.Framework.PageMem
import UbbdKernel.Framework.Loop
import UbbdKernel.Framework.Ledger
import UbbdKernel.Framework.Wrap
import UbbdKernel.Framework.Nla
import UbbdKernel.Header
import UbbdKernel.Ring.Model
import UbbdKernel.Ring.Entry
import UbbdKernel.Ring.Fifo
import UbbdKernel.Ring.Space
import UbbdKernel.Ring.Reader
import UbbdKernel.Ring.Completion
import UbbdKernel.Ring.Loops
import UbbdKernel.Request
import UbbdKernel.Pages.Model
import UbbdKernel.Pages.Calls
import UbbdKernel.Pages.Owner
import UbbdKernel.Pages.Lost
import UbbdKernel.Pages.Teardown
import UbbdKernel.Pages.Work
import UbbdKernel.Pages.Counter
import UbbdKernel.Pages.Contract
import UbbdKernel.Pages.Reserve
import UbbdKernel.Pages.Inode
import UbbdKernel.Pages.Address
import UbbdKernel.Pages.Fault
import UbbdKernel.Pages.Data
import UbbdKernel.Queue.Model
import UbbdKernel.Queue.Step
import UbbdKernel.Queue.Status
import UbbdKernel.Queue.Drain
import UbbdKernel.Queue.Removal
import UbbdKernel.Queue.Inflight
import UbbdKernel.Queue.Once
import UbbdKernel.Queue.Leak
import UbbdKernel.Queue.Holding
import UbbdKernel.Queue.Entries
import UbbdKernel.Queue.Kept
import UbbdKernel.Queue.Reclaim
import UbbdKernel.Queue.Work
import UbbdKernel.Queue.Progress
import UbbdKernel.Queue.Teardown
import UbbdKernel.Queue.Fetch
import UbbdKernel.Queue.Published
import UbbdKernel.Queue.Stats
import UbbdKernel.Routing
import UbbdKernel.Device.Worker
import UbbdKernel.Device.Lifecycle
import UbbdKernel.Device.Refs
import UbbdKernel.Device.Disk
import UbbdKernel.Device.Work
import UbbdKernel.Device.Timeout
import UbbdKernel.Device.Config
import UbbdKernel.Device.Add
import UbbdKernel.Device.Unwind
import UbbdKernel.Kring.Backend
import UbbdKernel.Kring.Files
import UbbdKernel.Kring.Minor
import UbbdKernel.Kring.Event
import UbbdKernel.Netlink.Model
import UbbdKernel.Netlink.Fill
import UbbdKernel.Netlink.Room
import UbbdKernel.Netlink.Decode
import UbbdKernel.Service.Model
import UbbdKernel.Service.Completions
import UbbdKernel.Service.Exchange
import UbbdKernel.Service.Messages
import UbbdKernel.Service.Transfer
import UbbdKernel.Service.Refines
import UbbdKernel.Service.Lossless
import UbbdKernel.Service.Reclaim
