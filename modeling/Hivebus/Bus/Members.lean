import Mathlib.Data.List.Sort
import Hivebus.Lib.Table
import Hivebus.Proto.Frame

namespace Hivebus.Bus
open Lib Proto

abbrev Members := Table UInt16 NodeInfo

/-- What `main` fixes before the tasks start: the node's own identity and the two
thresholds of the failure detector. -/
structure Daemon where
  selfId : UInt16
  hostname : String
  controlAddr : SocketAddr
  incarnation : UInt32
  suspectThreshold : Duration
  deadThreshold : Duration

/-- Simple bully: lowest node id that is Alive, the daemon's own included. -/
def masterFrom (ord : Table.Order UInt16 NodeInfo) (members : Members) (selfId : UInt16) :
    Option UInt16 :=
  let aliveIds := ((ord.values members).filter (fun n => n.state == .alive)).map NodeInfo.nodeId
  ((aliveIds ++ [selfId]).insertionSort (· ≤ ·)).head?

/-- The name of a node that has not announced one: `node-` and its id as `{:#06x}`. -/
def nodeName (nid : UInt16) : String :=
  let n := nid.toNat
  "node-0x" ++ String.ofList
    [hexDigit (n / 4096), hexDigit (n / 256 % 16), hexDigit (n / 16 % 16), hexDigit (n % 16)]

def heartbeatRecord (now : SystemTime) (source : SocketAddr) (nid : UInt16)
    (pl : HeartbeatPayload) : NodeInfo where
  nodeId := nid
  hostname := nodeName nid
  controlAddr := source
  state := .alive
  incarnation := pl.incarnation
  lastSeen := now
  isMaster := false

def refresh (now : SystemTime) (pl : HeartbeatPayload) (entry : NodeInfo) : NodeInfo :=
  { entry with state := .alive, incarnation := pl.incarnation, lastSeen := now }

def onHeartbeat (now : SystemTime) (source : SocketAddr) (nid : UInt16) (pl : HeartbeatPayload)
    (m : Members) : Members :=
  m.upsert nid (heartbeatRecord now source nid pl) (refresh now pl)

def announceRecord (now : SystemTime) (nid : UInt16) (pl : AnnouncePayload) : NodeInfo where
  nodeId := nid
  hostname := pl.hostname
  controlAddr := pl.controlAddr
  state := .alive
  incarnation := pl.incarnation
  lastSeen := now
  isMaster := false

/-- A record already under the id is only compared for a log line, then replaced. -/
def onAnnounce (now : SystemTime) (nid : UInt16) (pl : AnnouncePayload) (m : Members) : Members :=
  m.insert nid (announceRecord now nid pl)

/-- The incarnation and the reason of the payload are not looked at. -/
def onLeave (nid : UInt16) (_pl : LeavePayload) (m : Members) : Members :=
  m.modify nid (fun e => { e with state := .dead })

/-- The record gossip creates for a node it is the first to name; its address is the
address of whoever gossiped. -/
def gossipRecord (now : SystemTime) (source : SocketAddr) (entry : GossipEntry) : NodeInfo where
  nodeId := entry.nodeId
  hostname := nodeName entry.nodeId
  controlAddr := source
  state := entry.state
  incarnation := entry.incarnation
  lastSeen := now
  isMaster := false

def absorb (entry : GossipEntry) (e : NodeInfo) : NodeInfo :=
  if entry.incarnation ≥ e.incarnation then
    { e with state := entry.state, incarnation := entry.incarnation }
  else e

def onGossipEntry (selfId : UInt16) (now : SystemTime) (source : SocketAddr) (m : Members)
    (entry : GossipEntry) : Members :=
  if entry.nodeId = selfId then m
  else m.upsert entry.nodeId (gossipRecord now source entry) (absorb entry)

def onGossip (selfId : UInt16) (now : SystemTime) (source : SocketAddr) (pl : GossipPayload)
    (m : Members) : Members :=
  pl.entries.foldl (onGossipEntry selfId now source) m

/-- One turn of the listener on a decoded frame. All readings of the clock it takes for
one frame are the same. -/
def handleFrame (selfId : UInt16) (now : SystemTime) (source : SocketAddr) (f : Frame)
    (m : Members) : Members :=
  if f.nodeId = selfId then m
  else
    match f.message with
    | .heartbeat pl => onHeartbeat now source f.nodeId pl m
    | .announce pl => onAnnounce now f.nodeId pl m
    | .leave pl => onLeave f.nodeId pl m
    | .gossip pl => onGossip selfId now source pl m
    | .ignored => m

/-- What the listener makes of a datagram before it takes the lock: `none` when the
header or the payload does not decode. -/
def decodeFrame (data : List UInt8) : Option Frame :=
  match FrameHeader.fromBytes data with
  | none => none
  | some header =>
    let payloadBytes := data.drop 4
    match header.msgType with
    | none => none
    | some .heartbeat => (HeartbeatPayload.codec.decode payloadBytes).map
        (fun p => ⟨header.nodeId, .heartbeat p.1⟩)
    | some .announce => (AnnouncePayload.codec.decode payloadBytes).map
        (fun p => ⟨header.nodeId, .announce p.1⟩)
    | some .leave => (LeavePayload.codec.decode payloadBytes).map
        (fun p => ⟨header.nodeId, .leave p.1⟩)
    | some .gossip => (GossipPayload.codec.decode payloadBytes).map
        (fun p => ⟨header.nodeId, .gossip p.1⟩)
    | some .voteRequest | some .voteGrant | some .ack => some ⟨header.nodeId, .ignored⟩

/-- The size of the listener's buffer; what is longer is cut off. -/
def recvBuffer : Nat := 576

/-- One turn of the listener on the bytes it has read: what does not decode changes nothing. -/
def listen (selfId : UInt16) (now : SystemTime) (source : SocketAddr) (data : List UInt8)
    (m : Members) : Members :=
  match decodeFrame data with
  | some f => handleFrame selfId now source f m
  | none => m

def cleanupThreshold : Duration := Duration.fromSecs 300

/-- A record stamped after `now` counts as infinitely old. -/
def age (now : SystemTime) (node : NodeInfo) : Duration :=
  (now.durationSince node.lastSeen).getD Duration.max

def downgrade (d : Daemon) (now : SystemTime) (node : NodeInfo) : NodeInfo :=
  if age now node > d.deadThreshold then { node with state := .dead }
  else if age now node > d.suspectThreshold ∧ node.state = .alive then
    { node with state := .suspect }
  else node

/-- The first two passes of a scan: what is stale is dropped, what is silent is
downgraded. -/
def agedMembers (d : Daemon) (now : SystemTime) (m : Members) : Members :=
  (m.retain (fun _ node => age now node < cleanupThreshold)).mapValues (downgrade d now)

/-- One turn of the failure detector under the write lock; the master is flagged among
what its first two passes leave. -/
def scan (ord : Table.Order UInt16 NodeInfo) (d : Daemon) (now : SystemTime) (m : Members) :
    Members :=
  let aged := agedMembers d now m
  let masterId := masterFrom ord aged d.selfId
  aged.mapValues (fun node => { node with isMaster := some node.nodeId == masterId })

end Hivebus.Bus
