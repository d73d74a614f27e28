import Masala.Library.Exec
import Masala.Library.CString
import Masala.Library.Ensures
import Masala.Library.Trace
import Masala.Library.Decimal
import Masala.Library.Hex
import Masala.Library.BigEndian
import Masala.Library.BlockHash
import Masala.Library.Sweep
import Masala.Library.Entries
import Masala.Library.Ledger
import Masala.Library.Inquiry
import Masala.Library.SecureHash
import Masala.Library.Separator
import Masala.Library.Tiling
import Masala.Library.ThreeWay
import Masala.Library.Buffer
import Masala.Digest.Sha1
import Masala.Digest.Compression
import Masala.Digest.Streaming
import Masala.Digest.Hmac
import Masala.Bencode.Encode
import Masala.Bencode.Decode
import Masala.Bencode.Validate
import Masala.Bencode.Grammar
import Masala.Bencode.DecodeValue
import Masala.Bencode.ValidateValue
import Masala.Bencode.Language
import Masala.Bencode.RoundTrip
import Masala.Bencode.Canonical
import Masala.Bencode.Integer
import Masala.Bencode.Compare
import Masala.Bencode.Order
import Masala.Bencode.Sort
import Masala.Bencode.Packet
import Masala.Container.LinkedList
import Masala.Container.ListRuns
import Masala.Container.FiniteMap
import Masala.Container.Registry
import Masala.Container.Payloads
import Masala.Routing.Identifier
import Masala.Routing.Bucket
import Masala.Routing.Cells
import Masala.Routing.Split
import Masala.Routing.Grid
import Masala.Routing.Routed
import Masala.Routing.Partition
import Masala.Routing.Midpoint
import Masala.Routing.Narrowing
import Masala.Routing.AnyMatch
import Masala.Routing.Change
import Masala.Routing.Directory
import Masala.Routing.Expire
import Masala.Routing.Roster
import Masala.Session.Cache
import Masala.Session.Run
import Masala.Session.ReplayProtection
import Masala.Session.Expire
import Masala.Daemon.HostId
import Masala.Daemon.NameIds
import Masala.Daemon.Main
import Masala.Daemon.Send
import Masala.Daemon.Neighborhood
import Masala.Daemon.Requests
import Masala.Daemon.Packets
import Masala.Daemon.Message
import Masala.Daemon.Delivery
import Masala.Daemon.Cron
import Masala.Daemon.Moved
import Masala.Daemon.Asking
import Masala.Daemon.Deeds
import Masala.Daemon.Turns
import Masala.Daemon.Lookups
import Masala.Daemon.Announcements
import Masala.Daemon.Visits
import Masala.Daemon.Runs
import Masala.Daemon.Answered
import Masala.Daemon.AskedOnce
import Masala.Daemon.Lifetime
import Masala.Daemon.Uniqueness
import Masala.Daemon.Splitting
import Masala.Daemon.ReplySize
import Masala.Daemon.Effects
import Masala.Daemon.Workings
import Masala.Daemon.Handling
import Masala.Daemon.Traffic
import Masala.Daemon.Reception
import Masala.Daemon.Network
import Masala.Daemon.Agreement
import Masala.Daemon.Hosts
import Masala.Daemon.Replays
import Masala.Daemon.Findings
import Masala.Daemon.Resolution
import Masala.Daemon.Confirmation
import Masala.Daemon.Database
import Masala.Daemon.Staleness
import Masala.Console.Reply
import Masala.Console.Arguments
import Masala.Dns.Message
import Masala.Dns.Name
import Masala.Dns.Query
import Masala.Dns.Encoding
import Masala.Dns.Response
import Masala.Library.Words
import Masala.Nss.Client
import Masala.Nss.Layout
import Masala.Nss.Service
import Masala.Daemon.Pending
import Masala.Nss.Resolution
import Masala.Web.Server
import Masala.Web.Connections
import Masala.Web.Resolution
