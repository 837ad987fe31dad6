import Mlmq.Lib.BigEndian
import Mlmq.Lib.Utf8
import Mlmq.Lib.Format
import Mlmq.Lib.Nio
import Mlmq.Lib.Cursor
import Mlmq.Lib.Codecs
import Mlmq.Util.ByteBufferUtil
import Mlmq.Dto
import Mlmq.Net.Requests
import Mlmq.Net.Responses
import Mlmq.Net.Factory
import Mlmq.Net.RoundTrip
import Mlmq.Db.Table
import Mlmq.Server.FrameSize
import Mlmq.Db.Dequeue
import Mlmq.Db.NoFalseEmpty
import Mlmq.Db.Fifo
import Mlmq.Lib.Queue
import Mlmq.Server.Connection
import Mlmq.Net.Ending
import Mlmq.Server.Reassembly
import Mlmq.Server.LeftOver
import Mlmq.Lib.Slots
import Mlmq.Server.System
import Mlmq.Server.Ownership
import Mlmq.Server.Contents
import Mlmq.Server.NoLoss
import Mlmq.Server.Views
import Mlmq.Server.Leak
import Mlmq.Server.Handles
import Mlmq.Server.Motion
import Mlmq.Server.Routing
import Mlmq.Server.Drain
import Mlmq.Server.Traffic
import Mlmq.Server.Pipelining
import Mlmq.Client.ClientConnection
import Mlmq.Db.Schema
import Mlmq.Lib.Programs
import Mlmq.Db.Dao
import Mlmq.Server.RequestProcessor
import Mlmq.Server.ConnectionPool
import Mlmq.Server.OpenTransaction
import Mlmq.Server.Processing
import Mlmq.Server.PersonalQueue
import Mlmq.Server.Queries
import Mlmq.Server.Privacy
import Mlmq.Server.PendingQueues
import Mlmq.Server.EarlyFaults
import Mlmq.Server.Registration
import Mlmq.Server.MultiSend
import Mlmq.Client.ResponseReassembly
import Mlmq.Server.Channel
import Mlmq.Client.RemoteCalls
import Mlmq.Client.ClosedLoop
import Mlmq.Server.Steady
import Mlmq.Client.Pending
import Mlmq.Client.Progress
import Mlmq.Server.Reactor
import Mlmq.Model.Queue
import Mlmq.Model.QueueMMm
import Mlmq.Lib.Text
import Mlmq.Log.PerformanceLog
import Mlmq.Lib.Allocations
import Mlmq.Server.MalformedLengths
import Mlmq.Server.Conversations
import Mlmq.Scenario.Pair
import Mlmq.Server.GetOrCreate
import Mlmq.Lib.Decimal
import Mlmq.Model.QueueMMmB
import Mlmq.Model.Rounding
import Mlmq.Lib.ClosedNetwork
import Mlmq.Mva.MeanValueAnalyzer
import Mlmq.Mva.Bottleneck
import Mlmq.Lib.Series
import Mlmq.Mva.Throughput
import Mlmq.Model.LearnGanz
import Mlmq.Lib.Counts
import Mlmq.Log.Bucket
import Mlmq.Log.GnuPlotPrinter
import Mlmq.Log.LogAnalizer
import Mlmq.Log.TruncatedLog
import Mlmq.Log.InterArrivalTimeHistogram
import Mlmq.Common.Configuration
import Mlmq.Scenario.Pairing
import Mlmq.Command.CommandFileHandler
import Mlmq.Lib.Ledger
import Mlmq.Lib.Rpc
import Mlmq.Server.Accounting
import Mlmq.Client.Service
import Mlmq.Client.Atomic
import Mlmq.Scenario.OneWay
