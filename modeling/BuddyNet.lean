import BuddyNet.Library.Machine
import BuddyNet.Library.Directory
import BuddyNet.Go.Text
import BuddyNet.Go.Base64
import BuddyNet.Go.Json
import BuddyNet.Go.Net
import BuddyNet.Go.Map
import BuddyNet.Keys
import BuddyNet.RateLimit
import BuddyNet.Ticket
import BuddyNet.Relay.Offer
import BuddyNet.Relay.Server
import BuddyNet.Relay.Steps
import BuddyNet.Relay.Legs
import BuddyNet.Relay.Admission
import BuddyNet.Relay.Isolation
import BuddyNet.Relay.Reachability
import BuddyNet.Handshake.Registry
import BuddyNet.Handshake.Upsert
import BuddyNet.Handshake.Control
import BuddyNet.Handshake.Steps
import BuddyNet.Handshake.Tickets
import BuddyNet.Handshake.Provenance
import BuddyNet.Handshake.Snapshot
import BuddyNet.Nft
import BuddyNet.Supervisor
import BuddyNet.Exposure
import BuddyNet.Go.Lines
import BuddyNet.Library.Transaction
import BuddyNet.Trust.Files
import BuddyNet.Trust.Manifest
import BuddyNet.Trust.Gates
import BuddyNet.Trust.Commands
import BuddyNet.Trust.RevocationList
import BuddyNet.Trust.CommandSpecs
import BuddyNet.Trust.CrashSafety
import BuddyNet.Trust.Spelling
import BuddyNet.Go.Netip
import BuddyNet.Library.Log
import BuddyNet.Buddy.Paths
import BuddyNet.Buddy.Connect
import BuddyNet.Buddy.Remembered
import BuddyNet.Library.Tally
import BuddyNet.Relay.Accounting
import BuddyNet.Library.Pacing
import BuddyNet.Relay.HalfOpen
import BuddyNet.Relay.Budget
import BuddyNet.Go.JsonText
import BuddyNet.Relay.Replies
import BuddyNet.Handshake.SideTables
import BuddyNet.Handshake.Shape
import BuddyNet.Go.JsonQuote
import BuddyNet.Handshake.Authorizer
import BuddyNet.Handshake.Wire
import BuddyNet.Handshake.Request
import BuddyNet.Handshake.Approval
import BuddyNet.Handshake.Interference
import BuddyNet.Handshake.Enrollment
import BuddyNet.Supervisor.Indices
import BuddyNet.Supervisor.Shutdown
import BuddyNet.Supervisor.Rescope
import BuddyNet.Trust.Sessions
import BuddyNet.Go.JsonRead
import BuddyNet.Go.Base64Text
import BuddyNet.TicketText
import BuddyNet.Handshake.Issuing
import BuddyNet.Relay.BindText
import BuddyNet.Buddy.RelayCred
import BuddyNet.Relay.Pairing
import BuddyNet.RelayTickets
import BuddyNet.Handshake.WireText
import BuddyNet.SealedCode
import BuddyNet.Buddy.Register
import BuddyNet.Buddy.Roster
import BuddyNet.Handshake.Entries
import BuddyNet.RosterAgreement
import BuddyNet.Go.LineTail
import BuddyNet.Handshake.Allowlist
import BuddyNet.Handshake.ApprovalTimes
import BuddyNet.Library.Gather
import BuddyNet.Trust.ExposeText
import BuddyNet.Trust.ManifestText
import BuddyNet.Trust.Adding
import BuddyNet.Trust.Workers
import BuddyNet.Trust.Revoking
import BuddyNet.Trust.Migration
import BuddyNet.Library.Optimistic
import BuddyNet.Trust.Concurrent
import BuddyNet.Cache.Registry
import BuddyNet.Handshake.Candidates
import BuddyNet.Nft.Failures
import BuddyNet.Cache.Names
import BuddyNet.Cache.Resolve
import BuddyNet.Cache.Concurrent
import BuddyNet.Cache.Views
import BuddyNet.Buddy.Offline
import BuddyNet.Buddy.Binding
import BuddyNet.Buddy.Lazy
import BuddyNet.Library.Netlink
import BuddyNet.Library.Nftables
import BuddyNet.Nft.Wire
import BuddyNet.Nft.Compile
import BuddyNet.Nft.Batch
import BuddyNet.Nft.Firewall
import BuddyNet.Buddy.Direct
import BuddyNet.Handshake.Slots
import BuddyNet.RateLimit.Bounds
import BuddyNet.Ticket.Reading
import BuddyNet.Tunnel.Control
import BuddyNet.Buddy.RelayOffers
import BuddyNet.Library.Cylinders
import BuddyNet.Relay.Policy
import BuddyNet.Supervisor.Reprogram
import BuddyNet.Invite
import BuddyNet.NetKey.Sources
import BuddyNet.Flags
import BuddyNet.Trust.RevocationNotes
import BuddyNet.Wg.Device
import BuddyNet.Wg.Handshaked
