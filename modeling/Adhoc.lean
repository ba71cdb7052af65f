import Adhoc.Lib.Mem
import Adhoc.Lib.Machine
import Adhoc.Lib.Blocks
import Adhoc.Rndis.Protocol
import Adhoc.Rndis.Device
import Adhoc.Rndis.Receive
import Adhoc.Rndis.RxPath
import Adhoc.Rndis.Session
import Adhoc.Rndis.TxPath
import Adhoc.Dhcp.Options
import Adhoc.Dhcp.Request
import Adhoc.Dhcp.Offer
import Adhoc.Dhcp.History
import Adhoc.Lib.RefCount
import Adhoc.Lwip.Pbuf
import Adhoc.Lwip.Heap
import Adhoc.Lwip.HeapRuns
import Adhoc.Lwip.Polling
import Adhoc.Rndis.Control
import Adhoc.Rndis.ControlPath
import Adhoc.Dhcp.Lease
import Adhoc.Dns.Server
import Adhoc.Http.Parser
import Adhoc.Http.Stream
import Adhoc.Rndis.Delivery
import Adhoc.Http.Fragments
import Adhoc.Http.RoundTrip
import Adhoc.Http.Connection
import Adhoc.Http.Isolation
import Adhoc.Http.Outgoing
import Adhoc.Dhcp.Dispatch
import Adhoc.Dhcp.Grammar
import Adhoc.Dns.Question
import Adhoc.Lib.Sampling
import Adhoc.Time.Clock
import Adhoc.Lib.Bulk
import Adhoc.Rndis.Wire
import Adhoc.Rndis.Completion
import Adhoc.Http.Stores
import Adhoc.Http.Query
import Adhoc.Http.Segments
import Adhoc.Http.Listener
import Adhoc.Http.Lookahead
import Adhoc.Http.Numbers
import Adhoc.Http.Operations
import Adhoc.Http.Quoting
import Adhoc.Http.Writing
import Adhoc.Rndis.Arming
import Adhoc.Rndis.SetMsg
import Adhoc.Time.Timers
import Adhoc.Http.Mirror
import Adhoc.Http.Progress
import Adhoc.Dhcp.Area
import Adhoc.Http.Truncation
import Adhoc.Usb.Core
import Adhoc.Usb.Transfers
import Adhoc.Usb.Channel
import Adhoc.Usb.Writes
import Adhoc.Usb.TxFifo
import Adhoc.Lib.Pieces
import Adhoc.Lwip.Reass
import Adhoc.Lwip.Chaining
import Adhoc.Lwip.ReassRuns
import Adhoc.Lwip.ReassRoom
import Adhoc.Lwip.Frag
import Adhoc.Lwip.FragRuns
