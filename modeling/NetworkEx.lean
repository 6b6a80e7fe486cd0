import NetworkEx.TransitionRuns
import NetworkEx.ByteStreams
import NetworkEx.CText
import NetworkEx.ScanFormat
import NetworkEx.WireWords
import NetworkEx.FileProtocol
import NetworkEx.FileAgreement
import NetworkEx.QueryEncoding
import NetworkEx.FileCatalogue
import NetworkEx.FileListing
import NetworkEx.DownloadResult
import NetworkEx.FileDelivery
import NetworkEx.FileTransfer
import NetworkEx.UploadIsolation
import NetworkEx.ChatSockets
import NetworkEx.RtsChat
import NetworkEx.RtsRemoval
import NetworkEx.RtsInput
import NetworkEx.RtsArming
import NetworkEx.RtsMembership
import NetworkEx.RtsFidelity
import NetworkEx.RtsOrder
import NetworkEx.EpollOrder
import NetworkEx.FileRoundTrip
import NetworkEx.UnlockedCounter
import NetworkEx.ForkingServers
import NetworkEx.EpollChat
import NetworkEx.EpollRepresentation
import NetworkEx.EpollAccept
import NetworkEx.EpollFidelity
import NetworkEx.ChatRelay
import NetworkEx.ConnectOrder
import NetworkEx.ListenAll
import NetworkEx.BlockFifo
import NetworkEx.FifoEcho
import NetworkEx.TextEcho
import NetworkEx.UdomainServer
import NetworkEx.UdomainEcho
import NetworkEx.FormattedEcho
import NetworkEx.OobEcho
import NetworkEx.StreamLines
import NetworkEx.ChatLines
import NetworkEx.ChatSurvival
import NetworkEx.EchoNonblocking
import NetworkEx.EchoIsolation
import NetworkEx.EchoTable
import NetworkEx.SelectEcho
import NetworkEx.SelectFidelity
import NetworkEx.SelectScan
import NetworkEx.MySelect
import NetworkEx.ProcessTable
import NetworkEx.MyShell
import NetworkEx.WorkerHandoff
import NetworkEx.SemaphoreCounter
import NetworkEx.SemaphoreProgress
import NetworkEx.MutexCounter
import NetworkEx.ParallelSum
import NetworkEx.UdpCalculator
import NetworkEx.UdpCorrectness
import NetworkEx.UdpMatching
import NetworkEx.UdpSession
import NetworkEx.CalculatorInput
import NetworkEx.TcpCalculator
import NetworkEx.TcpIsolation
import NetworkEx.OnesComplement
import NetworkEx.IcmpChecksum
import NetworkEx.IcmpCheck
import NetworkEx.AddressClass
import NetworkEx.PacketCapture
import NetworkEx.MulticastSender
import NetworkEx.MulticastReceiver
import NetworkEx.PathResolution
import NetworkEx.FileConfinement
import NetworkEx.CivilCalendar
import NetworkEx.HeaderText
import NetworkEx.HttpDate
import NetworkEx.WebServer
import NetworkEx.TokenText
import NetworkEx.WebTokens
import NetworkEx.RequestTokens
import NetworkEx.RequestLine
import NetworkEx.WebConfinement
import NetworkEx.WebHead
import NetworkEx.WebFraming
import NetworkEx.WebBounds
import NetworkEx.WebSegments
import NetworkEx.RtsRoom
import NetworkEx.EpollRoom
import NetworkEx.EpollDrain
import NetworkEx.EpollDelivery
import NetworkEx.OneShotEcho
import NetworkEx.ParallelFinish
import NetworkEx.UdomainProgress
import NetworkEx.ChecksumErrors
