import Hivebus.Lib.Table
import Hivebus.Lib.Run
import Hivebus.Lib.Codec
import Hivebus.Lib.Stamped
import Hivebus.Proto.Types
import Hivebus.Proto.Frame
import Hivebus.Proto.Control
import Hivebus.Bus.Members
import Hivebus.Bus.Machine
import Hivebus.Bus.Control
import Hivebus.Bus.News
import Hivebus.Proofs.Envelope
import Hivebus.Proofs.ControlView
import Hivebus.Proofs.Incarnation
import Hivebus.Proofs.Convergence
import Hivebus.Proofs.Master
import Hivebus.Proofs.Eviction
import Hivebus.Pxeboot.Boot
import Hivebus.Pxeboot.Dhcp
import Hivebus.Proofs.Leases
import Hivebus.Pxeboot.Control
import Hivebus.Proofs.Replies
import Hivebus.Lib.Fifo
import Hivebus.Pxeboot.Tftp
import Hivebus.Proofs.TftpTransfer
import Hivebus.Proofs.Evidence
import Hivebus.Proofs.Address
import Hivebus.Bus.Gossip
import Hivebus.Proofs.GossipSize
import Hivebus.Proofs.Pool
import Hivebus.Proofs.Offers
import Hivebus.Proofs.Stability
import Hivebus.Proofs.Crowd
import Hivebus.Proofs.Expiry
import Hivebus.Proofs.Reservations
import Hivebus.Proofs.Scripts
import Hivebus.Proofs.BootFile
import Hivebus.Bus.Cluster
import Hivebus.Bus.Network
import Hivebus.Proofs.Provenance
import Hivebus.Proofs.Suspicion
import Hivebus.Proofs.Forgetting
import Hivebus.Proofs.Heartbeats
import Hivebus.Proofs.Failover
import Hivebus.Proofs.Election
import Hivebus.Proofs.Lives
import Hivebus.Proofs.Discovery
import Hivebus.Proto.Connection
import Hivebus.Netop.Control
import Hivebus.Netgate.Control
import Hivebus.Imager.Control
import Hivebus.Proofs.Failures
import Hivebus.Hivectl.Query
import Hivebus.Hivectl.App
import Hivebus.Proofs.ClusterView
import Hivebus.Proofs.Screen
import Hivebus.Proofs.Operators
import Hivebus.Pxeboot.Datagram
import Hivebus.Proofs.Datagrams
import Hivebus.Proofs.StrayPackets
import Hivebus.Pxeboot.Reads
import Hivebus.Proofs.ShortReads
import Hivebus.Pxeboot.Server
import Hivebus.Lib.Tasks
import Hivebus.Pxeboot.Sessions
import Hivebus.Proofs.Sessions
import Hivebus.Proofs.Modes
import Hivebus.Proofs.Paths
import Hivebus.Proofs.Scan
import Hivebus.Proofs.Merge
import Hivebus.Lib.Tlv
import Hivebus.Pxeboot.Checked
import Hivebus.Proofs.Options
import Hivebus.Proofs.Requests
import Hivebus.Proofs.ReplyBytes
import Hivebus.Bus.NodeId
import Hivebus.Vagrant.Agent
import Hivebus.Lib.Split
import Hivebus.Proofs.NodeIds
import Hivebus.Proofs.SeedUrl
import Hivebus.Pxeboot.Daemon
import Hivebus.Proofs.Conversation
import Hivebus.Proofs.BootTable
import Hivebus.Proofs.Netboot
import Hivebus.Proofs.Services
import Hivebus.Netgate.Gateway
import Hivebus.Proofs.Forwarding
import Hivebus.Netop.Daemon
import Hivebus.Proofs.Enforcement
