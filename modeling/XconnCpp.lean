import XconnCpp.Library.Transition
import XconnCpp.Library.Program
import XconnCpp.Library.Tree
import XconnCpp.Library.Table
import XconnCpp.Library.Correlation
import XconnCpp.Library.Search
import XconnCpp.Library.Layout
import XconnCpp.Values
import XconnCpp.RoundTrip
import XconnCpp.ValueHops
import XconnCpp.SentFrames
import XconnCpp.RequestBuilders
import XconnCpp.TypedGetters
import XconnCpp.Printing
import XconnCpp.UrlParser
import XconnCpp.TransportClosing
import XconnCpp.Joining
import XconnCpp.SocketTransport
import XconnCpp.Framing
import XconnCpp.FrameHeaders
import XconnCpp.HandlerCauses
import XconnCpp.Deliveries
import XconnCpp.FrameWriters
import XconnCpp.SessionState
import XconnCpp.SessionPrograms
import XconnCpp.InboundMessages
import XconnCpp.SessionRuns
import XconnCpp.HandlerTables
import XconnCpp.ReceiveLoop
import XconnCpp.Interleaving
import XconnCpp.RequestCorrelation
import XconnCpp.Farewell
import XconnCpp.Goodbye
import XconnCpp.ThreadPool
import XconnCpp.PoolRuns
import XconnCpp.PoolTasks
import XconnCpp.PoolShutdown
import XconnCpp.PoolProgress
import XconnCpp.FailedRequests
import XconnCpp.Invocations
import XconnCpp.ClosedSending
import XconnCpp.LostWrites
import XconnCpp.ApplicationErrors
import XconnCpp.EchoReplies
import XconnCpp.ReceiverInvariants
import XconnCpp.Stopping
import XconnCpp.Destruction
import XconnCpp.PromiseOwners
import XconnCpp.SocketSessions
import XconnCpp.SocketRefinement
import XconnCpp.PooledSessions
import XconnCpp.EventOrder
import XconnCpp.Clients
