import LhsServer.Library.Bytes
import LhsServer.Library.Decimal
import LhsServer.Library.Percent
import LhsServer.Library.Lines
import LhsServer.Library.Bindings
import LhsServer.Library.Framing
import LhsServer.Library.LexPath
import LhsServer.Library.Regex
import LhsServer.Library.SortedTable
import LhsServer.Library.Calendar
import LhsServer.Library.Html
import LhsServer.Library.Loop
import LhsServer.Library.Traced
import LhsServer.Library.Dialogue
import LhsServer.Library.TransitionSystem
import LhsServer.Library.Heap
import LhsServer.Protocol.Http
import LhsServer.Runtime
import LhsServer.FileSystem
import LhsServer.Protocol.Http.Header
import LhsServer.Protocol.Http.Request
import LhsServer.Protocol.Http.Response
import LhsServer.Protocol.Http.Middleware
import LhsServer.Middleware.Error404
import LhsServer.Middleware.StaticFile
import LhsServer.Middleware.Changing
import LhsServer.Middleware.Urlmap
import LhsServer.Middleware.Stack
import LhsServer.Middleware.Objects
import LhsServer.Server.ClientThread
import LhsServer.Server.Run
import LhsServer.Server.Process
import LhsServer.Server.Fields
import LhsServer.Main
import LhsServer.Server.Shutdown
import LhsServer.Server.AccessLog
import LhsServer.Server.Dates
import LhsServer.Correctness.Parsing
import LhsServer.Correctness.Message
import LhsServer.Correctness.Totality
import LhsServer.Correctness.Bounds
import LhsServer.Correctness.Continuation
import LhsServer.Correctness.Target
import LhsServer.Correctness.HeaderFields
import LhsServer.Correctness.HeaderHistory
import LhsServer.Correctness.Wire
import LhsServer.Correctness.RoundTrip
import LhsServer.Correctness.HandOff
import LhsServer.Correctness.Fields
import LhsServer.Correctness.Reading
import LhsServer.Correctness.Confinement
import LhsServer.Correctness.StaticContent
import LhsServer.Correctness.Changing
import LhsServer.Correctness.FileContent
import LhsServer.Correctness.Availability
import LhsServer.Correctness.Opening
import LhsServer.Correctness.Links
import LhsServer.Correctness.Index
import LhsServer.Correctness.ParentLink
import LhsServer.Correctness.Stack
import LhsServer.Correctness.Markup
import LhsServer.Correctness.Layers
import LhsServer.Correctness.Uninitialised
import LhsServer.Correctness.Influence
import LhsServer.Correctness.Outside
import LhsServer.Correctness.Isolation
import LhsServer.Correctness.Process
import LhsServer.Correctness.Progress
import LhsServer.Correctness.Calls
import LhsServer.Correctness.Connections
import LhsServer.Correctness.Descriptors
import LhsServer.Correctness.Resets
import LhsServer.Correctness.Routing
import LhsServer.Correctness.Boundaries
import LhsServer.Correctness.Hosts
import LhsServer.Correctness.Remap
import LhsServer.Correctness.Sending
import LhsServer.Correctness.Program
import LhsServer.Correctness.Service
import LhsServer.Correctness.Objects
import LhsServer.Correctness.Outcome
import LhsServer.Correctness.Shutdown
import LhsServer.Correctness.AccessLog
import LhsServer.Correctness.Dates
