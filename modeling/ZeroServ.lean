import ZeroServ.Accept
import ZeroServ.Buffer
import ZeroServ.Common.StrUtil
import ZeroServ.Common.Vector
import ZeroServ.Dispatch
import ZeroServ.Echo
import ZeroServ.EventLoop
import ZeroServ.Fd
import ZeroServ.Interest
import ZeroServ.Lib.CInt
import ZeroServ.Lib.CString
import ZeroServ.Lib.Chain
import ZeroServ.Lib.DList
import ZeroServ.Lib.Decimal
import ZeroServ.Lib.EbTree
import ZeroServ.Lib.Heap
import ZeroServ.Lib.LittleEndian
import ZeroServ.Lib.Mirror
import ZeroServ.Lib.OnesComplement
import ZeroServ.Lib.Run
import ZeroServ.Lib.TwoBit
import ZeroServ.Memcached.Answers
import ZeroServ.Memcached.Assoc
import ZeroServ.Memcached.Callbacks
import ZeroServ.Memcached.Commands
import ZeroServ.Memcached.Connections
import ZeroServ.Memcached.DataBlock
import ZeroServ.Memcached.Ending
import ZeroServ.Memcached.Growth
import ZeroServ.Memcached.Hash
import ZeroServ.Memcached.Holding
import ZeroServ.Memcached.Invariant
import ZeroServ.Memcached.Items
import ZeroServ.Memcached.Layout
import ZeroServ.Memcached.Lru
import ZeroServ.Memcached.Map
import ZeroServ.Memcached.Migration
import ZeroServ.Memcached.Pipeline
import ZeroServ.Memcached.Reading
import ZeroServ.Memcached.RoundTrip
import ZeroServ.Memcached.StoreItem
import ZeroServ.Memcached.Swallow
import ZeroServ.Memcached.Turns
import ZeroServ.Memcached.Verdict
import ZeroServ.Poller
import ZeroServ.PubSub.Chunks
import ZeroServ.PubSub.CookieHeader
import ZeroServ.PubSub.Cookies
import ZeroServ.PubSub.Delivery
import ZeroServ.PubSub.FixedBuffers
import ZeroServ.PubSub.Frame
import ZeroServ.PubSub.HttpMessage
import ZeroServ.PubSub.HttpResponses
import ZeroServ.PubSub.Leftover
import ZeroServ.PubSub.Limits
import ZeroServ.PubSub.Logins
import ZeroServ.PubSub.Membership
import ZeroServ.PubSub.Model
import ZeroServ.PubSub.Password
import ZeroServ.PubSub.PlainText
import ZeroServ.PubSub.Publication
import ZeroServ.PubSub.Replies
import ZeroServ.PubSub.Requests
import ZeroServ.PubSub.ResponseLimits
import ZeroServ.PubSub.Segments
import ZeroServ.PubSub.Server
import ZeroServ.PubSub.Sessions
import ZeroServ.PubSub.Writes
import ZeroServ.Routing.Acknowledgement
import ZeroServ.Routing.Checksum
import ZeroServ.Routing.LocalPort
import ZeroServ.Routing.Packet
import ZeroServ.Routing.Proto
import ZeroServ.Routing.VirtualPort
import ZeroServ.Ticks
import ZeroServ.Routing.RouteMap
import ZeroServ.Http
import ZeroServ.Lib.ChunkPool
import ZeroServ.Lib.SwapRemove
import ZeroServ.Memcached.Slabs
import ZeroServ.ChangeList
import ZeroServ.Common.VectorArray
import ZeroServ.Memcached.Tokens
import ZeroServ.Lib.ElasticTree
import ZeroServ.Lib.Simulate
import ZeroServ.Ebtree.Nodes
import ZeroServ.Ebtree.Shape
import ZeroServ.Ebtree.Walk
import ZeroServ.Ebtree.Insert
import ZeroServ.Ebtree.Delete
import ZeroServ.Ebtree.Duplicates
import ZeroServ.Ebtree.Runs
import ZeroServ.Tasks.Sched
import ZeroServ.Tasks.Simulation
import ZeroServ.Tasks.Queues
import ZeroServ.Tasks.Wake
import ZeroServ.Tasks.Memory
import ZeroServ.Tasks.Fair
import ZeroServ.Ebtree.Bits
import ZeroServ.Tasks.Bits
import ZeroServ.Tasks.Poll
import ZeroServ.Lib.Pieces
import ZeroServ.Parser.Bytes
import ZeroServ.Parser.Course
import ZeroServ.Parser.Readahead
import ZeroServ.Parser.Switch
import ZeroServ.Parser.Execute
import ZeroServ.Parser.Segments
import ZeroServ.Parser.Requests
import ZeroServ.Parser.Inside
import ZeroServ.PubSub.Parsing
