import Yamq.Machine
import Yamq.Lib.PairSearch
import Yamq.Rpc.IoBuffer
import Yamq.Lib.SortedMap
import Yamq.Http.HttpRequest
import Yamq.Http.HttpContext
import Yamq.Http.Chunking
import Yamq.Rpc.IoBufferRoom
import Yamq.Rpc.Channel
import Yamq.Tcp.Connection
import Yamq.Tcp.Outgoing
import Yamq.Lib.Transition
import Yamq.Lib.Traced
import Yamq.Rpc.EventDispatcher
import Yamq.Rpc.SyncRun
import Yamq.Lib.RedBlack.Balance
import Yamq.Lib.RedBlack.Insert
import Yamq.Lib.RedBlack.Delete
import Yamq.Lib.RedBlack.Rebalance
import Yamq.Base.RbTree
import Yamq.Base.RbTreeCells
import Yamq.Base.RbTreeRotate
import Yamq.Base.RbTreeInsert
import Yamq.Rpc.Dispatch
import Yamq.Rpc.QueueOrder
import Yamq.Tcp.QueuedSend
import Yamq.Http.HttpResponse
import Yamq.Http.HttpServer
import Yamq.Http.Pipelining
import Yamq.Tcp.Closing
import Yamq.Tcp.CloseOnce
import Yamq.Tcp.Dropping
import Yamq.Tcp.ConnectFirst
import Yamq.Tcp.ServerRun
import Yamq.Tcp.ServerState
import Yamq.Tcp.IoErrors
import Yamq.Base.RbTreeDelete
import Yamq.Timer.TimerQueue
import Yamq.Timer.TimerEffects
import Yamq.Timer.TimerRefs
import Yamq.Base.RbTreeContents
import Yamq.Timer.Tick
import Yamq.Timer.StaleEvent
import Yamq.Timer.Deadline
import Yamq.Timer.Links
import Yamq.Timer.Cancelling
import Yamq.Timer.EqualExpiry
import Yamq.Timer.CrossThread
import Yamq.Rpc.ByteFifo
import Yamq.Rpc.Stopping
import Yamq.Rpc.Wakeup
import Yamq.Log.LogWorker
import Yamq.Log.Records
import Yamq.Log.Shutdown
import Yamq.Base.ThreadPool
import Yamq.Base.ThreadPoolWaiters
import Yamq.Base.RbTreeHandles
import Yamq.Lib.RedBlack.Imbalance
import Yamq.Base.RbTreeValidity
import Yamq.Base.RbTreeSuccessor
import Yamq.Timer.Extraction
import Yamq.Timer.CountedTimers
import Yamq.Timer.SpecialIntervals
import Yamq.Timer.SignedKeys
import Yamq.Http.RequestLine
import Yamq.Http.RoundTrip
import Yamq.Http.HeaderEnd
import Yamq.Decimal
import Yamq.Http.ResponseDecoder
import Yamq.Log.LogFile
import Yamq.Log.RollSize
import Yamq.Log.PartialWrites
import Yamq.Log.FileHandle
import Yamq.Log.Rolling
import Yamq.Rpc.FindCRLF
import Yamq.Log.LogStream
import Yamq.Log.LogCapture
import Yamq.Tcp.HandleEvent
import Yamq.Lib.IndexedArray
import Yamq.Rpc.PollSelector
import Yamq.Lib.CyclicSearch
import Yamq.NextId
import Yamq.Tcp.ConnectionTable
import Yamq.FreshIds
import Yamq.Log.BufferPool
import Yamq.Lib.Numeral
import Yamq.Log.Formatting
import Yamq.Log.SymbolParser
import Yamq.Log.StackTrace
import Yamq.Rpc.BufferGrowth
import Yamq.Rpc.BufferRange
import Yamq.Base.SharedQueue
import Yamq.Base.ThreadPoolShutdown
import Yamq.Lib.RedBlack.Height
import Yamq.Base.RbTreeDump
import Yamq.Base.RbTreeDepth
import Yamq.Rpc.EpollSelector
import Yamq.Lib.Ownership
import Yamq.Tcp.Link
import Yamq.Log.Disk
import Yamq.Base.Any
import Yamq.Http.Dialogue
import Yamq.Http.HttpLink
import Yamq.Base.RbTreeQueue
import Yamq.Tcp.IoWorker
import Yamq.Tcp.IoWorkerRuns
import Yamq.Rpc.Executed
import Yamq.Log.DoubleText
import Yamq.Log.Lifetime
