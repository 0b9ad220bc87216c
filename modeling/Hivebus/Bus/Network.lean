import Mathlib.Logic.Function.Basic
import Hivebus.Bus.Gossip
import Hivebus.Bus.Machine
import Hivebus.Bus.NodeId

namespace Hivebus.Bus
open Lib Proto

def discoveryPort : UInt16 := 7777

def cargoPkgVersion : String := "0.1.0"

structure Config where
  clusterIface : String
  clusterAddr : Ipv4Addr
  nodeId : Option UInt16
  hostname : Option String
  heartbeatIntervalMs : UInt64
  suspectMisses : UInt32
  deadSecs : UInt64

/-- A machine of the cluster: its config, what its system says of it, and the address its
datagrams come from. -/
structure Host where
  cfg : Config
  gethostname : Option String
  readToString : String → Option String
  source : SocketAddr

/-- What `main` settles before it sends anything; the product of the thresholds wraps, as
it does in a release build. -/
def main (h : Host) (now : SystemTime) : Except String Daemon := do
  let hostname := h.cfg.hostname.getD (h.gethostname.getD "unknown")
  let nodeId ← match h.cfg.nodeId with
    | some id => .ok id
    | none => deriveNodeId h.readToString h.cfg.clusterIface
  return {
    selfId := nodeId
    hostname := hostname
    controlAddr := .v4 h.cfg.clusterAddr (discoveryPort + 1)
    incarnation := startIncarnation now
    suspectThreshold := Duration.fromMillis
      (h.cfg.heartbeatIntervalMs * h.cfg.suspectMisses.toUInt64).toNat
    deadThreshold := Duration.fromSecs h.cfg.deadSecs.toNat }

def announcePayload (d : Daemon) : AnnouncePayload where
  incarnation := d.incarnation
  hostname := d.hostname
  controlAddr := d.controlAddr
  version := cargoPkgVersion

/-- The one ANNOUNCE a daemon sends; a host name that does not fit keeps it from being sent. -/
def announce (d : Daemon) : Option (List UInt8) :=
  (encodeFrame AnnouncePayload.codec (.new .announce 0 d.selfId) (announcePayload d)).toOption

/-- One round of the heartbeat task: the next sequence number and the datagram it sends. -/
def heartbeatRound (d : Daemon) (epochMs : UInt64) (seq : UInt8) : UInt8 × Option (List UInt8) :=
  let payload : HeartbeatPayload := ⟨d.incarnation, epochMs⟩
  let header := FrameHeader.new .heartbeat seq d.selfId
  ((seq + 1) &&& 0x0F, (encodeFrame HeartbeatPayload.codec header payload).toOption)

/-- A running daemon: what `main` settled, the table with its failure detector, and the
counters of the two sending tasks. -/
structure Process where
  daemon : Daemon
  state : State
  heartbeatSeq : UInt8
  gossipSeq : UInt8

structure Datagram where
  source : SocketAddr
  data : List UInt8

namespace Process

/-- `main` has spawned the tasks. -/
def start (d : Daemon) : Process := ⟨d, Bus.start, 0, 0⟩

def step (ord : Table.Order UInt16 NodeInfo) (p : Process) (e : Event) : Process :=
  { p with state := Bus.step ord p.daemon p.state e }

/-- A datagram arrives, of which the listener reads what its buffer has room for. -/
def recv (p : Process) (now : SystemTime) (dg : Datagram) : Process :=
  let buf := dg.data.take recvBuffer
  { p with state := take Table.Order.newest p.daemon p.state ⟨now, .datagram dg.source buf⟩ }

end Process

/-- The daemons that run and everything that was ever sent. Nothing leaves `sent`: a
datagram may arrive late, more than once, at one machine and not at another, or never. -/
structure Network (ι : Type) where
  procs : ι → Option Process
  sent : List Datagram

inductive Doing (ι : Type) where
  | boot (i : ι)
  | halt (i : ι)
  | heartbeat (i : ι)
  | gossip (i : ι) (ord : Table.Order UInt16 NodeInfo) (epochMs : Nat → UInt64)
  | sample (i : ι)
  | scan (i : ι) (ord : Table.Order UInt16 NodeInfo)
  | deliver (ix : Nat) (i : ι)

/-- What happens and the clock of the machine it happens on. -/
structure Happening (ι : Type) where
  now : SystemTime
  doing : Doing ι

namespace Network

variable {ι : Type} [DecidableEq ι]

def start : Network ι := ⟨fun _ => none, []⟩

/-- Lets the daemon on a machine take a step; on a machine without one nothing happens. -/
def onProcess (w : Network ι) (i : ι) (f : Process → Process) : Network ι :=
  { w with procs := Function.update w.procs i ((w.procs i).map f) }

/-- Puts a datagram on the network, where there is one. Broadcast and multicast carry the
same bytes, so one copy stands for both. -/
def send (w : Network ι) (source : SocketAddr) (data : Option (List UInt8)) : Network ι :=
  { w with sent := (data.map (Datagram.mk source)).toList ++ w.sent }

/-- The daemon on a machine starts: a second one on the same machine replaces the first,
and one whose `main` fails is gone at once. -/
def boot (hosts : ι → Host) (w : Network ι) (i : ι) (now : SystemTime) : Network ι :=
  match main (hosts i) now with
  | .ok d =>
    { w with procs := Function.update w.procs i (some (.start d)) }.send
      (hosts i).source (announce d)
  | .error _ => { w with procs := Function.update w.procs i none }

def step (hosts : ι → Host) (w : Network ι) (e : Happening ι) : Network ι :=
  match e.doing with
  | .boot i => w.boot hosts i e.now
  | .halt i => { w with procs := Function.update w.procs i none }
  | .heartbeat i =>
    match w.procs i with
    | none => w
    | some p =>
      let round := heartbeatRound p.daemon (epochMs e.now) p.heartbeatSeq
      (w.onProcess i (fun p => { p with heartbeatSeq := round.1 })).send (hosts i).source round.2
  | .gossip i ord epochMs =>
    match w.procs i with
    | none => w
    | some p =>
      let round := gossipRound ord p.daemon epochMs p.gossipSeq p.state.members
      (w.onProcess i (fun p => { p with gossipSeq := round.1 })).send (hosts i).source round.2
  | .sample i => w.onProcess i (fun p => p.step Table.Order.newest ⟨e.now, .sample⟩)
  | .scan i ord => w.onProcess i (fun p => p.step ord ⟨e.now, .scan⟩)
  | .deliver ix i =>
    match w.sent[ix]? with
    | none => w
    | some dg => w.onProcess i (fun p => p.recv e.now dg)

def run (hosts : ι → Host) (es : List (Happening ι)) : Network ι := Run.exec (step hosts) start es

end Network

end Hivebus.Bus
