import CapyJs.Transition.Machine
import CapyJs.Transition.Insertion
import CapyJs.Transition.Simulation
import CapyJs.Heap.Order
import CapyJs.Libuv.Heap
import CapyJs.Libuv.HeapCorrect
import CapyJs.Libuv.TimerRuns
import CapyJs.Queue.BoundedFifo
import CapyJs.Queue.SpscQueue
import CapyJs.Queue.WorkQueue
import CapyJs.Queue.SpscSides
import CapyJs.Pool.IndexChain
import CapyJs.Pool.MemPool
import CapyJs.Pool.Allocator
import CapyJs.Resource.Log
import CapyJs.Text
import CapyJs.Codec.Base64
import CapyJs.Codec.Sha1
import CapyJs.Codec.Lines
import CapyJs.Codec.Utf8
import CapyJs.Codec.Significand
import CapyJs.Util.Base64
import CapyJs.Stream.Framing
import CapyJs.Memory.ReleaseAcquire
import CapyJs.Queue.RelaxedRing
import CapyJs.Queue.RelaxedSpsc
import CapyJs.Queue.RelaxedWorkQueue
import CapyJs.Parse.Incremental
import CapyJs.Stream.Gather
import CapyJs.WebSocket.Frame
import CapyJs.WebSocket.Bounds
import CapyJs.WebSocket.Send
import CapyJs.Util.Sha1
import CapyJs.Util.ContentType
import CapyJs.Http.Request
import CapyJs.Http.PicoParser
import CapyJs.Http.RequestText
import CapyJs.Http.Routes
import CapyJs.Http.UpgradeRequest
import CapyJs.Http.Response
import CapyJs.Http.HeaderBuffer
import CapyJs.Http.HeaderLines
import CapyJs.Http.HeaderMap
import CapyJs.Server.ClientState
import CapyJs.Server.RecvChain
import CapyJs.Server.RecvQueue
import CapyJs.Server.MessageReceive
import CapyJs.Server.Connection
import CapyJs.Server.ConnectionInvariant
import CapyJs.Server.Machine
import CapyJs.Server.Steps
import CapyJs.Server.Conservation
import CapyJs.Server.Invariant
import CapyJs.Server.Reachable
import CapyJs.Server.Safety
import CapyJs.Server.ZeroRead
import CapyJs.Server.Observation
import CapyJs.Server.RequestLog
import CapyJs.Server.KeepAlive
import CapyJs.Server.PatientPeer
import CapyJs.Server.LocalRun
import CapyJs.Server.OneResponse
import CapyJs.Server.CloseOnce
import CapyJs.Server.Resources
import CapyJs.Server.Backpressure
import CapyJs.Server.JsText
import CapyJs.Server.WsObjects
import CapyJs.Server.Upgrade
import CapyJs.Server.IdleRuns
import CapyJs.Server.SlotPhase
import CapyJs.Server.TimedServer
import CapyJs.Worker.ResultBell
import CapyJs.Worker.Kind
import CapyJs.Worker.Kinds
import CapyJs.Worker.Manager
import CapyJs.Worker.Moves
import CapyJs.Worker.RingManager
import CapyJs.Worker.RingInvariant
import CapyJs.Worker.RingRefinement
import CapyJs.Worker.RingResults
import CapyJs.Worker.OneWorker
import CapyJs.Worker.Ledger
import CapyJs.Worker.Callbacks
import CapyJs.Worker.InferenceEnd
import CapyJs.Worker.Tagged
import CapyJs.Worker.Contexts
import CapyJs.Worker.InferenceText
import CapyJs.Worker.Shutdown
import CapyJs.Worker.Rejected
import CapyJs.Worker.Script
import CapyJs.Worker.Delivery
import CapyJs.Worker.Progress
import CapyJs.Worker.CloseRun
import CapyJs.Worker.Engine
import CapyJs.Worker.EngineCallbacks
import CapyJs.Worker.Doorbell
import CapyJs.Fs.FileSystem
import CapyJs.Fs.Requests
import CapyJs.Fs.Files
import CapyJs.Fs.Ownership
import CapyJs.Fs.FdTable
import CapyJs.Fs.Buffers
import CapyJs.Timer.Interval
import CapyJs.Timer.Delay
import CapyJs.Timer.TimeoutRuns
import CapyJs.Signal.Daemon
