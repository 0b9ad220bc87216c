import Hivebus.Bus.Members

namespace Hivebus.Bus
open Lib Proto

def maxFrame : Nat := 508

def encodeFrame {α : Type} (c : Codec α) (header : FrameHeader) (payload : α) :
    Except String (List UInt8) :=
  let buf := header.toBytes ++ c.encode payload
  if buf.length > maxFrame then
    .error ("discovery frame too large: " ++ toString buf.length ++ " bytes")
  else .ok buf

/-- What the gossip task says of a record; the clock is read anew for each. -/
def gossipEntry (epochMs : UInt64) (n : NodeInfo) : GossipEntry where
  nodeId := n.nodeId
  incarnation := n.incarnation
  state := n.state
  epochMs := epochMs

/-- The entries of one round, where `epochMs i` is the reading for the `i`-th record. -/
def gossipEntries (ord : Table.Order UInt16 NodeInfo) (epochMs : Nat → UInt64) (m : Members) :
    List GossipEntry :=
  (ord.values m).mapIdx (fun i n => gossipEntry (epochMs i) n)

/-- One round of the gossip task: the next sequence number and the datagram it sends. An
empty table sends nothing, and neither does one whose frame is refused. -/
def gossipRound (ord : Table.Order UInt16 NodeInfo) (d : Daemon) (epochMs : Nat → UInt64)
    (seq : UInt8) (m : Members) : UInt8 × Option (List UInt8) :=
  let entries := gossipEntries ord epochMs m
  if entries.isEmpty then (seq, none)
  else
    let header := FrameHeader.new .gossip seq d.selfId
    ((seq + 1) &&& 0x0F, (encodeFrame GossipPayload.codec header ⟨entries⟩).toOption)

end Hivebus.Bus
