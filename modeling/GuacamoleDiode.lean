import GuacamoleDiode.Lib.Wire
import GuacamoleDiode.Lib.Reader
import GuacamoleDiode.Lib.Ranges
import GuacamoleDiode.Parser.OpcodeParser
import GuacamoleDiode.Parser.Excise
import GuacamoleDiode.Parser.Tracking
import GuacamoleDiode.Parser.Calls
import GuacamoleDiode.Lib.Pieces
import GuacamoleDiode.Parser.Stream
import GuacamoleDiode.Guard.GuardOpcodeParser
import GuacamoleDiode.Guard.Policy
import GuacamoleDiode.Lib.Decimal
import GuacamoleDiode.Guard.Filter
import GuacamoleDiode.Bridge.Multiplexer
import GuacamoleDiode.Gmlbroker.KeepaliveFilter
import GuacamoleDiode.Lib.Machine
import GuacamoleDiode.Gmlbroker.HandshakeForger
import GuacamoleDiode.Gmlbroker.ReadHandler
import GuacamoleDiode.Gmlbroker.Alignment
import GuacamoleDiode.Guard.Loop
import GuacamoleDiode.Guard.Steps
import GuacamoleDiode.Guard.Gate
import GuacamoleDiode.Guard.Soundness
import GuacamoleDiode.Parser.Resync
import GuacamoleDiode.Gcdbroker.SyncFaker
import GuacamoleDiode.Lib.Shuffle
import GuacamoleDiode.Gcdbroker.Broker
import GuacamoleDiode.Gcdbroker.Descriptors
import GuacamoleDiode.Gcdbroker.Router
import GuacamoleDiode.Gcdbroker.Ledger
import GuacamoleDiode.Gcdbroker.Integrity
import GuacamoleDiode.System.ForwardPath
import GuacamoleDiode.System.Sessions
import GuacamoleDiode.System.Coupling
import GuacamoleDiode.Guard.Isolation
import GuacamoleDiode.Gmlbroker.Outbound
import GuacamoleDiode.Guard.Clipboard
import GuacamoleDiode.Gcdbroker.Turns
import GuacamoleDiode.Gcdbroker.Teardown
import GuacamoleDiode.Gcdbroker.Successors
import GuacamoleDiode.Gmlbroker.ReturnFilter
import GuacamoleDiode.Gmlbroker.Broker
import GuacamoleDiode.Gmlbroker.Registry
import GuacamoleDiode.Lib.Directory
import GuacamoleDiode.Gmlbroker.Verdicts
import GuacamoleDiode.System.Duplicates
import GuacamoleDiode.Gmlbroker.ReturnStream
import GuacamoleDiode.Gmlbroker.Delivery
import GuacamoleDiode.Gmlbroker.Acks
import GuacamoleDiode.System.Diode
import GuacamoleDiode.Gmlbroker.Requests
import GuacamoleDiode.Gcdbroker.Bindings
import GuacamoleDiode.System.Agreement
import GuacamoleDiode.Bridge.ChannelTable
import GuacamoleDiode.Gmlbroker.ChannelMailbox
import GuacamoleDiode.Guard.GlobalDeny
import GuacamoleDiode.System.Shutdown
import GuacamoleDiode.Gmlbroker.Announcements
import GuacamoleDiode.Gcdbroker.Echoes
import GuacamoleDiode.System.Echoes
import GuacamoleDiode.Parser.Framing
import GuacamoleDiode.Parser.Morphism
import GuacamoleDiode.System.DroppedBlobs
import GuacamoleDiode.Gmlbroker.Handover
import GuacamoleDiode.Lib.Custody
import GuacamoleDiode.Gcdbroker.Ownership
import GuacamoleDiode.Gcdbroker.Threads
import GuacamoleDiode.System.Truncation
import GuacamoleDiode.Parser.Observer
import GuacamoleDiode.Gcdbroker.SyncStream
import GuacamoleDiode.Gcdbroker.Recovery
import GuacamoleDiode.Gmlbroker.ForgedReplies
import GuacamoleDiode.Gmlbroker.HandshakeOrder
import GuacamoleDiode.Gmlbroker.Capture
import GuacamoleDiode.Lib.Base64
import GuacamoleDiode.Lib.Limits
import GuacamoleDiode.System.ClipboardCap
import GuacamoleDiode.Parser.Lengths
import GuacamoleDiode.System.ParserClasses
import GuacamoleDiode.Parser.DeniedRanges
import GuacamoleDiode.System.Datagrams
import GuacamoleDiode.Parser.Excision
import GuacamoleDiode.Parser.FirstEnd
import GuacamoleDiode.Lib.Text
import GuacamoleDiode.Nettest.GuacClient
import GuacamoleDiode.System.WireParsers
import GuacamoleDiode.Lib.Lease
import GuacamoleDiode.Gmlbroker.Senders
import GuacamoleDiode.System.Trail
import GuacamoleDiode.System.Tenants
import GuacamoleDiode.System.Grants
import GuacamoleDiode.System.Keepers
import GuacamoleDiode.System.Streams
import GuacamoleDiode.Lib.Monitor
import GuacamoleDiode.Bridge.NetQueue
import GuacamoleDiode.Bridge.ReaderGroup
import GuacamoleDiode.System.Queues
import GuacamoleDiode.System.Closing
import GuacamoleDiode.Gcdbroker.Reads
import GuacamoleDiode.Gmlbroker.Receipts
import GuacamoleDiode.System.Returns
import GuacamoleDiode.Lib.Rest
import GuacamoleDiode.System.Rest
import GuacamoleDiode.Bridge.GuacamoleServer
import GuacamoleDiode.Bridge.Connections
import GuacamoleDiode.Bridge.Writes
