import DeepForensics.Lib.Run
import DeepForensics.Lib.Heap
import DeepForensics.Lib.Wire
import DeepForensics.Lib.Tokens
import DeepForensics.Kernel.Module
import DeepForensics.Kernel.Copy
import DeepForensics.Kernel.Bounds
import DeepForensics.Server.Pbuf
import DeepForensics.Server.Netlink
import DeepForensics.Server.TcpRaw
import DeepForensics.Server.Queue
import DeepForensics.Server.Refine
import DeepForensics.Server.Lifecycle
import DeepForensics.Server.Closing
import DeepForensics.Server.Ownership
import DeepForensics.Server.Fifo
import DeepForensics.Server.Request
import DeepForensics.Server.Action
import DeepForensics.Server.Window
import DeepForensics.Server.TotLen
import DeepForensics.Server.Framing
import DeepForensics.Server.Progress
import DeepForensics.Server.Host
import DeepForensics.Client.Parse
import DeepForensics.Client.Split
import DeepForensics.Client.Grammar
import DeepForensics.Client.Main
import DeepForensics.Client.Print
import DeepForensics.Client.Readback
import DeepForensics.Client.Console
import DeepForensics.System.Exchange
import DeepForensics.System.Session
import DeepForensics.System.Terminal
import DeepForensics.Lwip.Heap
import DeepForensics.Lwip.Timeouts
import DeepForensics.Lwip.Fairness
import DeepForensics.Lwip.Chksum
import DeepForensics.Lwip.Roundtrip
