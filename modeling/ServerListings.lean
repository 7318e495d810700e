import ServerListings.Lib.CMem
import ServerListings.Lib.Terminated
import ServerListings.Lib.LineReader
import ServerListings.Lib.HoleHeap
import ServerListings.Model.SharedParser
import ServerListings.Interface.SharedText
import ServerListings.Interface.SharedBounds
import ServerListings.Model.ParseLine
import ServerListings.Interface.RequestReader
import ServerListings.Analysis.RequestSegmentation
import ServerListings.Model.HttpConn
import ServerListings.Model.HttpParse
import ServerListings.Interface.HttpBounds
import ServerListings.Interface.HeadReader
import ServerListings.Interface.HttpHead
import ServerListings.Interface.ServedFile
import ServerListings.Analysis.HeaderSegmentation
import ServerListings.Analysis.ClientRequest
import ServerListings.Analysis.MalformedLines
import ServerListings.Analysis.ReadBufferSafety
import ServerListings.Analysis.BodyCompletion
import ServerListings.Model.HttpIo
import ServerListings.Interface.ReplyText
import ServerListings.Analysis.ResponseAppend
import ServerListings.Lib.Ensures
import ServerListings.Interface.ReplySide
import ServerListings.Interface.ReplyMessage
import ServerListings.Analysis.ResponseOnce
import ServerListings.Analysis.ResponseMessage
import ServerListings.Model.TimeHeap
import ServerListings.Interface.HeapArray
import ServerListings.Interface.HeapOperations
import ServerListings.Analysis.TimeHeapOrder
import ServerListings.Analysis.TimeHeapLifetime
import ServerListings.Lib.DoublyLinked
import ServerListings.Model.LstTimer
import ServerListings.Lib.StableQueue
import ServerListings.Interface.TimerLinks
import ServerListings.Interface.TimerListOps
import ServerListings.Analysis.TimerListOrder
import ServerListings.Lib.Transition
import ServerListings.Model.WebServer
import ServerListings.Interface.Sockets
import ServerListings.Interface.HandlerEffects
import ServerListings.Lib.Custody
import ServerListings.Interface.Ownership
import ServerListings.Interface.ServerSteps
import ServerListings.Interface.Arrivals
import ServerListings.Analysis.ConnectionOwner
import ServerListings.Lib.Histories
import ServerListings.Model.ServerLog
import ServerListings.Analysis.ConnectionCount
import ServerListings.Analysis.ForgottenConnection
import ServerListings.Lib.TimingWheel
import ServerListings.Lib.DenseTable
import ServerListings.Model.ChatServer
import ServerListings.Interface.ChatTables
import ServerListings.Analysis.ChatEntries
import ServerListings.Analysis.ChatSegments
import ServerListings.Analysis.ChatListening
import ServerListings.Model.TimeWheel
import ServerListings.Interface.WheelRuns
import ServerListings.Analysis.WheelTiming
import ServerListings.Analysis.WheelLifetime
import ServerListings.Lib.SharedRegister
import ServerListings.Model.ChatRelay
import ServerListings.Interface.RelaySteps
import ServerListings.Lib.EdgeTriggered
import ServerListings.Interface.RelayEdges
import ServerListings.Analysis.ChatRelay
import ServerListings.Lib.Threads
import ServerListings.Model.ThreadPool
import ServerListings.Interface.PoolRules
import ServerListings.Analysis.PoolOrder
import ServerListings.Analysis.PoolMutex
import ServerListings.Model.WebMain
import ServerListings.Analysis.ServerTeardown
import ServerListings.Model.InactiveServer
import ServerListings.Interface.TimerListSteps
import ServerListings.Interface.InactiveRules
import ServerListings.Analysis.InactiveTimers
import ServerListings.Interface.ServerPaths
import ServerListings.Interface.FileMapping
import ServerListings.Interface.MappingSteps
import ServerListings.Analysis.FileMappings
import ServerListings.Model.Conversation
import ServerListings.Interface.Exchanges
import ServerListings.Analysis.KeepAlive
import ServerListings.Model.ProcessPool
import ServerListings.Lib.RoundRobin
import ServerListings.Interface.RoundRobin
import ServerListings.Analysis.ChildLives
import ServerListings.Analysis.PoolAccept
import ServerListings.Analysis.PollChat
import ServerListings.Model.TimeHeapCallbacks
import ServerListings.Interface.HeapCallbacks
import ServerListings.Analysis.TickCallbacks
import ServerListings.Analysis.WheelLinks
import ServerListings.Model.TimeWheelCallbacks
import ServerListings.Interface.WheelCallbacks
import ServerListings.Analysis.WheelRearm
import ServerListings.Model.CgiConn
import ServerListings.Analysis.CgiProgram
import ServerListings.Analysis.PoolFairness
import ServerListings.Interface.ChatPass
import ServerListings.Analysis.PollPass
import ServerListings.Lib.LeastFree
import ServerListings.Analysis.ServerFiles
import ServerListings.Analysis.DescriptorLimit
import ServerListings.Analysis.PoolLimit
import ServerListings.Analysis.FullBuffer
import ServerListings.Interface.AskedUrl
import ServerListings.Analysis.FileAskedFor
import ServerListings.Analysis.SubtreeSift
import ServerListings.Model.TimeHeapInts
import ServerListings.Interface.HeapInts
import ServerListings.Analysis.TimeHeapBounds
import ServerListings.Interface.ChatInterest
import ServerListings.Analysis.PollInterest
import ServerListings.Interface.SharedFrames
import ServerListings.Analysis.ParserConfined
import ServerListings.Lib.LexicalPath
import ServerListings.Analysis.DocRoot
import ServerListings.Lib.TimerService
import ServerListings.Model.TimerServices
import ServerListings.Interface.TimerServices
import ServerListings.Analysis.TimerServices
import ServerListings.Lib.WheelContents
import ServerListings.Analysis.WheelService
import ServerListings.Interface.ServerPhases
import ServerListings.Analysis.ServerPhases
import ServerListings.Lib.Simulation
import ServerListings.Model.ServerInterleaving
import ServerListings.Interface.ServerFrames
import ServerListings.Interface.StatementSteps
import ServerListings.Analysis.ServerInterleaving
import ServerListings.Lib.Readiness
import ServerListings.Model.OneShot
import ServerListings.Interface.OneShotSteps
import ServerListings.Lib.Overlay
import ServerListings.Analysis.OneShotWorkers
import ServerListings.Model.PoolChild
import ServerListings.Interface.PoolChildSources
import ServerListings.Analysis.PoolChild
import ServerListings.Lib.EventLoop
import ServerListings.Lib.Traffic
import ServerListings.Model.RecvLoop
import ServerListings.Model.EtLt
import ServerListings.Interface.RecvLoop
import ServerListings.Interface.EtLtSteps
import ServerListings.Analysis.EtLt
import ServerListings.Model.EchoServer
import ServerListings.Interface.EchoSteps
import ServerListings.Analysis.EchoServer
import ServerListings.Model.StrayStore
import ServerListings.Model.OpenFiles
import ServerListings.Analysis.DefinedRuns
import ServerListings.Interface.StrayRequests
import ServerListings.Model.PressureTest
import ServerListings.Interface.PressureSteps
import ServerListings.Analysis.PressureTest
