import Telnetpp.Foundation.Transducer
import Telnetpp.Core
import Telnetpp.Generator
import Telnetpp.Parser
import Telnetpp.RoundTrip
import Telnetpp.Foundation.Run
import Telnetpp.Foundation.FifoNet
import Telnetpp.Foundation.ModeAgreement
import Telnetpp.Foundation.Modes
import Telnetpp.Option
import Telnetpp.Session
import Telnetpp.Deliveries
import Telnetpp.InstalledOptions
import Telnetpp.Negotiation.Endpoint
import Telnetpp.Negotiation.Agreement
import Telnetpp.Negotiation.Loops
import Telnetpp.Msdp.Variable
import Telnetpp.Msdp.Decoder
import Telnetpp.Msdp.Cursor
import Telnetpp.Msdp.Safety
import Telnetpp.Msdp.Reading
import Telnetpp.Msdp.Rendering
import Telnetpp.Msdp.Encoder
import Telnetpp.Mccp.Options
import Telnetpp.Mccp.Link
import Telnetpp.Foundation.Tables
import Telnetpp.Foundation.Replication
import Telnetpp.Foundation.Streams
import Telnetpp.Streams
import Telnetpp.NewEnviron.Protocol
import Telnetpp.NewEnviron.Options
import Telnetpp.NewEnviron.Mirror
import Telnetpp.NewEnviron.Exchange
import Telnetpp.Reconstruction
import Telnetpp.Independence
import Telnetpp.Mccp.Contract
import Telnetpp.Foundation.Loop
import Telnetpp.Foundation.Callback
import Telnetpp.Mccp.Codec
import Telnetpp.Mccp.Zlib
import Telnetpp.Mccp.Inflate
import Telnetpp.Mccp.Inflation
import Telnetpp.Mccp.Deflate
import Telnetpp.Mccp.Delivery
import Telnetpp.Mccp.Receiver
import Telnetpp.Mccp.Switching
import Telnetpp.Mccp.Restarts
import Telnetpp.Mccp.Sender
import Telnetpp.Mccp.Closing
import Telnetpp.Foundation.Announcement
import Telnetpp.Foundation.Split
import Telnetpp.Naws.Options
import Telnetpp.Naws.Report
import Telnetpp.Msdp.Brackets
import Telnetpp.Negotiation.History
import Telnetpp.NewEnviron.Entries
import Telnetpp.Charset.Options
import Telnetpp.Msdp.Stack
import Telnetpp.Mccp.Assertions
import Telnetpp.Mccp.Lifetime
import Telnetpp.Foundation.Projection
import Telnetpp.Foundation.Conduit
import Telnetpp.Application
import Telnetpp.Ends
import Telnetpp.Negotiation.Sessions
import Telnetpp.Negotiation.Sending
import Telnetpp.Negotiation.Contents
import Telnetpp.Msdp.Options
import Telnetpp.Rot13.Connection
import Telnetpp.Rot13.Announcement
import Telnetpp.Foundation.Budget
import Telnetpp.Negotiation.Economy
import Telnetpp.Mccp.Transport
import Telnetpp.Foundation.Fuel
import Telnetpp.Mccp.Format
import Telnetpp.Mccp.RoundTrip
import Telnetpp.Mccp.Compression
import Telnetpp.Component
import Telnetpp.Naws.Sessions
import Telnetpp.NewEnviron.Sessions
import Telnetpp.Negotiation.Outcome
import Telnetpp.Charset.Sessions
