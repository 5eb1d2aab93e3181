import Lish.Ieee.Round
import Lish.Ieee.Border
import Lish.Prog.Program
import Lish.Prog.Cache
import Lish.Prog.Loop
import Lish.Core.Exec
import Lish.Core.SoftFpCorrect
import Lish.Core.FpFast
import Lish.Core.PageTable
import Lish.Core.TlbFence
import Lish.Core.Frame
import Lish.Core.Rank
import Lish.System.VirtioEnds
import Lish.System.VirtBus
import Lish.System.BusFrame
import Lish.System.CodePages
import Lish.System.Progress
import Lish.System.SliceEnds
import Lish.System.Idle
import Lish.System.SliceRuns
import Lish.System.Clock
import Lish.System.ExternalBlock
import Lish.System.CodeObserved
import Lish.System.FusedHits
import Lish.System.Delivery
import Lish.Web.StoreRuns
import Lish.System.LrSc
import Lish.Core.Confine
import Lish.System.DmaRuns
import Lish.Core.CompressedExec
import Lish.Web.HostDiskRuns
import Lish.Jit.Disabled
import Lish.Jit.ExactCompletions
import Lish.Net.RelayRuns
import Lish.Jit.PageModules
import Lish.System.Lines
import Lish.Core.Priority
import Lish.System.Wedge
import Lish.System.BlockReport
import Lish.System.BlockCommit
import Lish.System.NetFrames
import Lish.System.HostSbi
import Lish.Core.Reserved
import Lish.Jit.MulHigh
import Lish.Jit.Leaders
import Lish.Net.DiskHTTPSession
import Lish.Net.WsRelay
import Lish.Web.NativeDisk
import Lish.System.Boot
import Lish.System.DtbRoundTrip
import Lish.Jit.Coverage
import Lish.Net.SlirpExact
import Lish.Jit.CompletionOrder
import Lish.Jit.TraceCompiled
