import HydrogenWeb.HyBufferQueue
import HydrogenWeb.EventLoopWakeup
import HydrogenWeb.EventLoopThread
import HydrogenWeb.EventLoopThreadPool
import HydrogenWeb.SharedBuf
import HydrogenWeb.TimerQueueArming
import HydrogenWeb.TimerQueueConservation
import HydrogenWeb.PollerCalls
import HydrogenWeb.PollerSign
import HydrogenWeb.TcpConnectionOutput
import HydrogenWeb.TcpServerLifecycle
import HydrogenWeb.ForeignSendShutdown
import HydrogenWeb.ForeignSendRemoval
import HydrogenWeb.HttpGiveUp
import HydrogenWeb.HttpPipelining
import HydrogenWeb.HttpFragments
import HydrogenWeb.HttpPersistent
import HydrogenWeb.HttpResponseWire
import HydrogenWeb.HttpRoundTrip
import HydrogenWeb.RobustIoCalls
import HydrogenWeb.HttpFormBody
import HydrogenWeb.HttpHeaderSection
import HydrogenWeb.HttpInterrupted
import HydrogenWeb.HttpConnectionRuns
import HydrogenWeb.TcpConnectionInput
import HydrogenWeb.PollerActive
import HydrogenWeb.RobustIoCount
import HydrogenWeb.SemWakeup
import HydrogenWeb.TcpConnectionBuffer
import HydrogenWeb.HttpConnectionHeader
import HydrogenWeb.HttpHeaderCase
import HydrogenWeb.ApplicationFiles
import HydrogenWeb.ApplicationSql
import HydrogenWeb.ApplicationResources
import HydrogenWeb.Sio
import HydrogenWeb.RobustIoTransfer
import HydrogenWeb.HttpConnection
import HydrogenWeb.HttpClient
import HydrogenWeb.ApplicationAnswers
import HydrogenWeb.ApplicationUsers
import HydrogenWeb.HttpAssertions
import HydrogenWeb.TimerQueuePace
import HydrogenWeb.TcpServerDescriptors
import HydrogenWeb.EchoServer
import HydrogenWeb.HttpServerPosts
import HydrogenWeb.EchoServerProgress
import HydrogenWeb.EchoServerPool
