import Femtolog.Foundations.Words
import Femtolog.Foundations.Memory
import Femtolog.Foundations.RingStore
import Femtolog.Foundations.Runs
import Femtolog.Foundations.Schedules
import Femtolog.Foundations.Fifo
import Femtolog.Foundations.Machine
import Femtolog.Foundations.Tickets
import Femtolog.Foundations.Encoding
import Femtolog.Foundations.Barrier
import Femtolog.Foundations.Scratch
import Femtolog.Foundations.Outlet
import Femtolog.Foundations.Mutex
import Femtolog.Foundations.Json
import Femtolog.Foundations.Bits
import Femtolog.Foundations.Search
import Femtolog.Foundations.Stack
import Femtolog.Foundations.Text
import Femtolog.Foundations.FirstFree
import Femtolog.Foundations.FileTree
import Femtolog.Foundations.Cut
import Femtolog.Foundations.Budget
import Femtolog.Queue.Basic
import Femtolog.Queue.Stream
import Femtolog.Queue.Requests
import Femtolog.Queue.Spsc
import Femtolog.Queue.Spmc
import Femtolog.Queue.Capacity
import Femtolog.Queue.Agreement
import Femtolog.Queue.SpscSteps
import Femtolog.Queue.SpscRun
import Femtolog.Queue.SpscCalls
import Femtolog.Queue.SpmcSteps
import Femtolog.Queue.SpmcRun
import Femtolog.Queue.SpmcChain
import Femtolog.Queue.SpmcIndices
import Femtolog.Queue.SpmcPeek
import Femtolog.Queue.SpmcRefinement
import Femtolog.Serialize.CppType
import Femtolog.Serialize.ArgsSerializer
import Femtolog.Serialize.ArgsDeserializer
import Femtolog.Serialize.RoundTrip
import Femtolog.Serialize.NullStrings
import Femtolog.Serialize.ValueMode
import Femtolog.Serialize.ReferenceMode
import Femtolog.Serialize.ReadOrder
import Femtolog.Logging.LogEntry
import Femtolog.Logging.Format
import Femtolog.Logging.InternalLogger
import Femtolog.Logging.LogLevel
import Femtolog.Logging.StringRegistry
import Femtolog.Logging.Message
import Femtolog.Logging.System
import Femtolog.Logging.Delivery
import Femtolog.Logging.Lifecycle
import Femtolog.Logging.Rounds
import Femtolog.Logging.DequeueBuffer
import Femtolog.Logging.Drain
import Femtolog.Logging.Reinit
import Femtolog.Logging.Fatal
import Femtolog.Logging.Flush
import Femtolog.Logging.Session
import Femtolog.Logging.Bursts
import Femtolog.Logging.Returns
import Femtolog.Logging.Calls
import Femtolog.Logging.Restarts
import Femtolog.Logging.Halves
import Femtolog.Logging.Accesses
import Femtolog.Core.StringUtil
import Femtolog.Core.FileUtil
import Femtolog.Core.Lines
import Femtolog.Core.Utf8
import Femtolog.Core.Tokens
import Femtolog.Core.Brackets
import Femtolog.Core.Paths
import Femtolog.Core.Directories
import Femtolog.Core.FileIo
import Femtolog.Core.WriteFormat
import Femtolog.Core.StackTraceEntry
import Femtolog.Core.StackTrace
import Femtolog.Core.CollectStackTrace
import Femtolog.Sinks.Basic
import Femtolog.Sinks.FileSink
import Femtolog.Sinks.StdoutSink
import Femtolog.Sinks.JsonLinesSink
import Femtolog.Sinks.JsonStream
import Femtolog.Sinks.Buffering
import Femtolog.Sinks.Archive
import Femtolog.Sinks.Rotation
import Femtolog.Sinks.Pipeline
import Femtolog.Sinks.SharedStdout
import Femtolog.Foundations.Clocks
import Femtolog.Queue.SpscWeak
import Femtolog.Queue.SpscOrder
import Femtolog.Queue.SpscRaces
