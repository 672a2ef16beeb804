import ForgeServer.Systems.Machine
import ForgeServer.Systems.Simulation
import ForgeServer.Systems.Framing
import ForgeServer.Systems.CInt
import ForgeServer.Bytes.Search
import ForgeServer.Bytes.CString
import ForgeServer.Bytes.Decimal
import ForgeServer.Bytes.Atoi
import ForgeServer.Bytes.PathWalk
import ForgeServer.Bytes.Cuts
import ForgeServer.Bytes.Frames
import ForgeServer.Bytes.Object
import ForgeServer.Server.Types
import ForgeServer.Http.Parser
import ForgeServer.Http.Request
import ForgeServer.Http.RequestLine
import ForgeServer.Http.KeepAlive
import ForgeServer.Http.RequestStream
import ForgeServer.Http.Static
import ForgeServer.Http.Response
import ForgeServer.Http.Fields
import ForgeServer.Http.Reading
import ForgeServer.Http.Sending
import ForgeServer.Server.HandleRead
import ForgeServer.Server.Outcome
import ForgeServer.Server.Answer
import ForgeServer.Server.Connection
import ForgeServer.Server.Replies
import ForgeServer.Server.DocumentRoot
import ForgeServer.Server.FileName
import ForgeServer.Server.ResponseStream
import ForgeServer.Server.ConnectionHeader
import ForgeServer.Server.Waiting
import ForgeServer.Server.Isolation
import ForgeServer.Server.Pipelining
import ForgeServer.Server.Pieces
import ForgeServer.Server.HalfClose
import ForgeServer.Worker.Resources
import ForgeServer.Worker.EventLoop
import ForgeServer.Worker.Bookkeeping
import ForgeServer.Worker.Ledger
import ForgeServer.Worker.Projection
import ForgeServer.Worker.Release
import ForgeServer.Net.Listener
import ForgeServer.Master.Options
import ForgeServer.Master.Startup
import ForgeServer.Master.Dispatch
import ForgeServer.Net.PassFd
import ForgeServer.Master.RoundRobin
import ForgeServer.Master.Wiring
import ForgeServer.Master.Fairness
import ForgeServer.Master.AcceptLoop
import ForgeServer.Master.Ownership
import ForgeServer.Master.Exited
import ForgeServer.Master.Stages
import ForgeServer.Master.Lifecycle
import ForgeServer.Master.Clients
import ForgeServer.Master.Signals
import ForgeServer.Master.Shutdown
import ForgeServer.Master.Teardown
