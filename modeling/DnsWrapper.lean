import DnsWrapper.DnsPacket
import DnsWrapper.PacketValidate
import DnsWrapper.LabelReader
import DnsWrapper.NameWire
import DnsWrapper.PacketWire
import DnsWrapper.ReadBounds
import DnsWrapper.RoundTrip
import DnsWrapper.WriteBounds
import DnsWrapper.RootName
import DnsWrapper.DnsServer
import DnsWrapper.ServerSteps
import DnsWrapper.Tracking
import DnsWrapper.Relaying
import DnsWrapper.Rdlength
import DnsWrapper.ByteRegion
import DnsWrapper.RuleData
import DnsWrapper.RuleEncoding
import DnsWrapper.RuleStore
import DnsWrapper.RuleCalls
import DnsWrapper.RuleEvaluate
import DnsWrapper.RequestIds
import DnsWrapper.Direction
import DnsWrapper.PointerChain
import DnsWrapper.SourcePool
import DnsWrapper.DigestStream
import DnsWrapper.RuleInsert
import DnsWrapper.LabelStores
import DnsWrapper.RedirectFamily
import DnsWrapper.EthMappings
import DnsWrapper.InPacket
import DnsWrapper.EthFrame
import DnsWrapper.MacTracking
import DnsWrapper.AddressText
import DnsWrapper.RuleText
import DnsWrapper.SaveLoad
import DnsWrapper.NameDecoding
import DnsWrapper.RdataSpan
import DnsWrapper.RedirectOctets
import DnsWrapper.RecordSweep
import DnsWrapper.RequestFlags
import DnsWrapper.UpstreamReply
import DnsWrapper.MacTable
import DnsWrapper.FrameRead
import DnsWrapper.InsertStores
import DnsWrapper.Receive
import DnsWrapper.RedirectReply
import DnsWrapper.RawBounds
import DnsWrapper.MacText
import DnsWrapper.InetText
import DnsWrapper.IpClassify
import DnsWrapper.UpstreamHosts
import DnsWrapper.RuleView
import DnsWrapper.RuleArguments
import DnsWrapper.RuleFiles
import DnsWrapper.LabelTurns
import DnsWrapper.HeaderFields
import DnsWrapper.Latency
import DnsWrapper.ClientAnswers
import DnsWrapper.Delivery
import DnsWrapper.SendPacket
import DnsWrapper.BlockBuffer
import DnsWrapper.DigestPadding
import DnsWrapper.ReadSlack
import DnsWrapper.Counters
import DnsWrapper.FrameAccept
import DnsWrapper.Progress
import DnsWrapper.SourceRefine
import DnsWrapper.Overload
import DnsWrapper.RuleSessions
import DnsWrapper.Startup
