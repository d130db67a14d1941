import Jullop.Machine
import Jullop.Ring
import Jullop.BitSpread
import Jullop.QueueInterface
import Jullop.LockQueue
import Jullop.AtomicQueue
import Jullop.Rounding
import Jullop.QueueCapacity
import Jullop.QueueMemory
import Jullop.QueueSize
import Jullop.WakeUp
import Jullop.Scanner
import Jullop.BlockScan
import Jullop.Transducer
import Jullop.Framing
import Jullop.HttpParser
import Jullop.RequestHead
import Jullop.BlankLine
import Jullop.ChunkedDecoder
import Jullop.ChunkedBody
import Jullop.InputBuffer
import Jullop.InputStream
import Jullop.OutputBuffer
import Jullop.OutputStream
import Jullop.AppendLoop
import Jullop.MessagePassing
import Jullop.Transfers
import Jullop.MessageStream
import Jullop.RequestStats
import Jullop.RequestTimes
import Jullop.ComponentTimes
import Jullop.RequestContext
import Jullop.RequestSteps
import Jullop.ReceivedBytes
import Jullop.Fragments
import Jullop.KeepAlive
import Jullop.ResponseParser
import Jullop.FastParser
import Jullop.HeadContent
import Jullop.ResponseHead
import Jullop.Response
import Jullop.ResponseLengths
import Jullop.ResponseRoundTrip
import Jullop.Server
import Jullop.Connection
import Jullop.Ownership
import Jullop.Moves
import Jullop.Timers
import Jullop.ServerSteps
import Jullop.Refinement
import Jullop.TimerLog
import Jullop.Recordings
import Jullop.Timelines
import Jullop.RequestCount
import Jullop.EventLoop
import Jullop.SingleOwner
import Jullop.Delivery
import Jullop.StableRequest
import Jullop.ClientView
import Jullop.BackPressure
import Jullop.Linearization
import Jullop.MutexQueue
import Jullop.ReleaseAcquire
import Jullop.RelaxedQueue
import Jullop.Traffic
import Jullop.Allocation
import Jullop.Quiescence
import Jullop.Resources
import Jullop.EndToEnd
import Jullop.RoundRobin
