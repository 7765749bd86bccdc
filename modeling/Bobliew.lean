import Bobliew.Lib.Runs
import Bobliew.Lib.OrderedList
import Bobliew.Lib.Ragel
import Bobliew.Lib.RagelOrder
import Bobliew.Lib.RagelLanguage
import Bobliew.Lib.SlotHistory
import Bobliew.Lib.Fifo
import Bobliew.Timer.Manager
import Bobliew.Timer.Order
import Bobliew.Timer.Membership
import Bobliew.Timer.Expiry
import Bobliew.Timer.Notification
import Bobliew.IOManager.Events
import Bobliew.IOManager.Consistency
import Bobliew.IOManager.Operations
import Bobliew.Scheduler.Run
import Bobliew.Scheduler.Refinement
import Bobliew.Scheduler.Switch
import Bobliew.IOManager.Wakeup
import Bobliew.Lib.FlatArray
import Bobliew.ByteArray.Chain
import Bobliew.ByteArray.Refinement
import Bobliew.Http.RequestGrammar
import Bobliew.Http.ActionOrder
import Bobliew.Http.Request
import Bobliew.Http.RequestParser
import Bobliew.Http.RequestRuns
import Bobliew.Http.RequestSession
import Bobliew.Http.Dump
import Bobliew.Http.ResponseGrammar
import Bobliew.Http.ResponseParser
import Bobliew.Http.Connection
import Bobliew.Http.CallbackRanges
import Bobliew.Http.ReadSplit
import Bobliew.Http.SplitHead
import Bobliew.Http.BehindHead
import Bobliew.Http.KeepAlive
import Bobliew.Http.HeadRuns
import Bobliew.Http.RoundTrip
import Bobliew.Http.ChunkedBody
import Bobliew.Lib.Effects
import Bobliew.Lib.WireFormat
import Bobliew.ByteArray.Cursor
import Bobliew.ByteArray.Values
import Bobliew.ByteArray.Strings
import Bobliew.Rock.Message
import Bobliew.Rock.Framing
import Bobliew.Stream.SocketStream
import Bobliew.Hook.Descriptors
import Bobliew.Hook.Reuse
import Bobliew.Hook.Nonblock
import Bobliew.Hook.DoIo
import Bobliew.Sync.FiberSemaphore
import Bobliew.Sync.WorkerGroup
import Bobliew.Http.ConnectionPool
import Bobliew.Http.PoolLimits
import Bobliew.Config.ConfigVar
import Bobliew.Http.ClientRequests
import Bobliew.Http.Params
import Bobliew.Http.LazyParams
import Bobliew.Http.Server
import Bobliew.Scheduler.Pinning
import Bobliew.Address.Port
import Bobliew.Hook.FdManager
import Bobliew.Config.Registry
import Bobliew.Timer.Delivery
import Bobliew.Timer.Pending
import Bobliew.ByteArray.Positional
import Bobliew.ByteArray.NullNode
import Bobliew.Lib.RagelActions
import Bobliew.Uri.Grammar
import Bobliew.Uri.Uri
import Bobliew.Lib.RagelDelimited
import Bobliew.Uri.Reference
import Bobliew.Uri.Components
import Bobliew.Uri.Actions
import Bobliew.Lib.RagelSchedule
import Bobliew.Uri.Entries
import Bobliew.Uri.Create
import Bobliew.Uri.Getters
import Bobliew.Uri.Printing
import Bobliew.Uri.Hosts
import Bobliew.Uri.Acceptance
import Bobliew.Http.UrlCode
import Bobliew.Lib.Separated
import Bobliew.Http.ParamSegments
import Bobliew.Http.MethodTokens
import Bobliew.ByteArray.ByteOrder
import Bobliew.Stream.Gather
import Bobliew.ByteArray.Files
import Bobliew.Hook.Sleep
import Bobliew.Http.AnnouncedBody
import Bobliew.Http.HeadVerdict
import Bobliew.Http.RequestLimits
import Bobliew.Lib.Narrowing
import Bobliew.IOManager.IdleTimeout
import Bobliew.Hook.TableBounds
import Bobliew.Hook.Connect
import Bobliew.Address.Masks
import Bobliew.Address.Ipv6Text
import Bobliew.Address.Lookup
import Bobliew.Lib.FixedTransfer
import Bobliew.Stream.FixSize
import Bobliew.Stream.SslSocket
import Bobliew.Stream.ZlibStream
import Bobliew.Lib.Standing
import Bobliew.Http.Servlet
import Bobliew.TcpServer.Bind
import Bobliew.Util.JsonEscape
import Bobliew.Util.YamlJson
import Bobliew.Log.Formatter
import Bobliew.Log.Appenders
import Bobliew.Log.Defines
import Bobliew.Log.Listener
import Bobliew.Config.LoadOrder
import Bobliew.Stream.ZlibDecode
import Bobliew.Rock.Ungzip
import Bobliew.Lib.Trimmed
import Bobliew.Util.Trim
import Bobliew.Util.Slice
import Bobliew.Lib.WeakOrder
import Bobliew.Util.BinarySearch
import Bobliew.Lib.PathTree
import Bobliew.Util.Rm
import Bobliew.Http.ClientResults
import Bobliew.Lib.RagelParts
import Bobliew.Http.ResponseRuns
import Bobliew.Http.ResponseHead
import Bobliew.Http.ResponseRoundTrip
import Bobliew.Http.Conversation
import Bobliew.Scheduler.Shutdown
import Bobliew.Scheduler.Draining
import Bobliew.Lib.Owners
import Bobliew.Socket.Lifetime
import Bobliew.Util.ListFiles
import Bobliew.Util.Files
import Bobliew.TcpServer.Lifecycle
import Bobliew.Lib.LockOrder
import Bobliew.Sync.Locking
import Bobliew.Log.FileAppender
import Bobliew.Address.UnixNames
import Bobliew.Util.FixStreams
