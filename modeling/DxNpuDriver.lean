import DxNpuDriver.Lib.Machine
import DxNpuDriver.Lib.Program
import DxNpuDriver.Lib.Extent
import DxNpuDriver.Lib.Custody
import DxNpuDriver.Lib.Cyclic
import DxNpuDriver.Lib.ListHead
import DxNpuDriver.Lib.Bytes
import DxNpuDriver.Lib.Window
import DxNpuDriver.Lib.Ledger
import DxNpuDriver.Lib.Paging
import DxNpuDriver.Kernel
import DxNpuDriver.Rt.Sched
import DxNpuDriver.Rt.Mailbox
import DxNpuDriver.Rt.Schedule
import DxNpuDriver.Rt.Response
import DxNpuDriver.Rt.Recovery
import DxNpuDriver.Rt.Readiness
import DxNpuDriver.Rt.PermFail
import DxNpuDriver.Rt.Stale
import DxNpuDriver.Rt.Proven
import DxNpuDriver.Rt.RebootEdge
import DxNpuDriver.Rt.Statistics
import DxNpuDriver.Rt.FailureWindow
import DxNpuDriver.Rt.RequestQueue
import DxNpuDriver.Rt.RequestRing
import DxNpuDriver.Rt.Payload
import DxNpuDriver.Rt.MemoryWindow
import DxNpuDriver.Rt.Upload
import DxNpuDriver.Rt.Ping
import DxNpuDriver.Rt.MmioCopy
import DxNpuDriver.Pcie.Transport
import DxNpuDriver.Pcie.Removal
import DxNpuDriver.Pcie.Link
import DxNpuDriver.Pcie.RateLimit
import DxNpuDriver.Pcie.Handles
import DxNpuDriver.Pcie.SwIrq
import DxNpuDriver.Pcie.ResponseStore
import DxNpuDriver.Pcie.EventStore
import DxNpuDriver.Bridge
import DxNpuDriver.Edma.Channel
import DxNpuDriver.Edma.Terminate
import DxNpuDriver.Edma.SgProcess
import DxNpuDriver.Edma.Completion
import DxNpuDriver.Edma.Fill
import DxNpuDriver.Edma.Transfer
import DxNpuDriver.Edma.Coverage
import DxNpuDriver.Edma.Shadow
import DxNpuDriver.Edma.Helper
import DxNpuDriver.Edma.Table
import DxNpuDriver.Edma.Accounting
import DxNpuDriver.Edma.Memory
import DxNpuDriver.Edma.Ownership
import DxNpuDriver.Edma.Ownership.Invariant
import DxNpuDriver.Edma.Ownership.ShadowWorker
import DxNpuDriver.Edma.Ownership.Linear
import DxNpuDriver.Edma.Outcome
import DxNpuDriver.Edma.Pinned
import DxNpuDriver.Edma.Batch
import DxNpuDriver.Edma.Lli
import DxNpuDriver.Edma.Prepare
import DxNpuDriver.Edma.UserSgl
import DxNpuDriver.Edma.Pools
import DxNpuDriver.Edma.Pause
import DxNpuDriver.Lib.Published
import DxNpuDriver.Pcie.Callback
import DxNpuDriver.Edma.Sequence
import DxNpuDriver.Edma.EndToEnd
import DxNpuDriver.Edma.VirtDma
import DxNpuDriver.Edma.VirtDma.Drain
import DxNpuDriver.Edma.IntMask
import DxNpuDriver.Edma.Msi
import DxNpuDriver.Lib.WaitQueue
import DxNpuDriver.Lib.SharedWord
import DxNpuDriver.Rt.Waiters
import DxNpuDriver.Rt.Waiters.Alert
import DxNpuDriver.Rt.Waiters.Wakeup
import DxNpuDriver.Rt.Waiters.Close
import DxNpuDriver.Rt.Waiters.Settle
