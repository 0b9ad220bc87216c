import Hivebus.Proto.Types

namespace Hivebus.Proto
open Lib

def frameMagic : UInt8 := 0xCA

/-- Message types carried in the upper nibble of `typeSeq`. -/
inductive MsgType where
  | heartbeat
  | announce
  | leave
  | ack
  | gossip
  | voteRequest
  | voteGrant
deriving DecidableEq

namespace MsgType

def toU8 : MsgType → UInt8
  | .heartbeat => 0
  | .announce => 1
  | .leave => 2
  | .ack => 3
  | .gossip => 4
  | .voteRequest => 5
  | .voteGrant => 6

def fromU8 (v : UInt8) : Option MsgType :=
  if v = 0 then some .heartbeat
  else if v = 1 then some .announce
  else if v = 2 then some .leave
  else if v = 3 then some .ack
  else if v = 4 then some .gossip
  else if v = 5 then some .voteRequest
  else if v = 6 then some .voteGrant
  else none

end MsgType

/-- The fixed header of every discovery packet; the two bytes of the node id are
kept in wire order. -/
structure FrameHeader where
  magic : UInt8
  typeSeq : UInt8
  nodeIdHi : UInt8
  nodeIdLo : UInt8
deriving DecidableEq

namespace FrameHeader

def new (msgType : MsgType) (seq : UInt8) (nodeId : UInt16) : FrameHeader where
  magic := frameMagic
  typeSeq := (msgType.toU8 <<< 4) ||| (seq &&& 0x0F)
  nodeIdHi := (nodeId >>> 8).toUInt8
  nodeIdLo := nodeId.toUInt8

def msgType (h : FrameHeader) : Option MsgType := MsgType.fromU8 (h.typeSeq >>> 4)

def seq (h : FrameHeader) : UInt8 := h.typeSeq &&& 0x0F

def nodeId (h : FrameHeader) : UInt16 := (h.nodeIdHi.toUInt16 <<< 8) ||| h.nodeIdLo.toUInt16

def toBytes (h : FrameHeader) : List UInt8 := [h.magic, h.typeSeq, h.nodeIdHi, h.nodeIdLo]

def fromBytes : List UInt8 → Option FrameHeader
  | b0 :: b1 :: b2 :: b3 :: _ => if b0 ≠ frameMagic then none else some ⟨b0, b1, b2, b3⟩
  | _ => none

theorem fromBytes_append {h : FrameHeader} (hm : h.magic = frameMagic) (rest : List UInt8) :
    fromBytes (h.toBytes ++ rest) = some h := by
  obtain ⟨magic, typeSeq, hi, lo⟩ := h
  simp only [toBytes, List.cons_append, List.nil_append, fromBytes]
  exact if_neg (fun hn => hn hm)

theorem fromBytes_new (t : MsgType) (seq : UInt8) (nid : UInt16) (rest : List UInt8) :
    fromBytes ((new t seq nid).toBytes ++ rest) = some (new t seq nid) := fromBytes_append rfl rest

@[simp] theorem msgType_new (t : MsgType) (seq : UInt8) (nid : UInt16) :
    (new t seq nid).msgType = some t := by
  have hs : (t.toU8 <<< 4 ||| seq &&& 0x0F) >>> 4 = t.toU8 := by
    obtain ⟨b⟩ := seq
    cases t <;> revert b <;> decide +kernel
  simp only [msgType, new, hs]
  cases t <;> rfl

@[simp] theorem seq_new (t : MsgType) (seq : UInt8) (nid : UInt16) :
    (new t seq nid).seq = seq % 16 := by
  have hs : (t.toU8 <<< 4 ||| seq &&& 0x0F) &&& 0x0F = seq % 16 := by
    obtain ⟨b⟩ := seq
    cases t <;> revert b <;> decide +kernel
  exact hs

/-- A header that is read is the first four bytes of what it is read from. -/
theorem toBytes_of_fromBytes {bs : List UInt8} {h : FrameHeader} (hb : fromBytes bs = some h) :
    h.toBytes = bs.take 4 := by
  unfold fromBytes at hb
  split at hb
  · split at hb
    · cases hb
    · cases hb
      rfl
  · cases hb

@[simp] theorem nodeId_new (t : MsgType) (seq : UInt8) (nid : UInt16) :
    (new t seq nid).nodeId = nid := by
  apply UInt16.toNat_inj.mp
  have hn := nid.toNat_lt
  have h8 : UInt16.toNat 8 % 16 = 8 := rfl
  rw [nodeId, bytePair_toNat]
  simp only [new, UInt16.toNat_toUInt8, UInt16.toNat_shiftRight, h8, Nat.shiftRight_eq_div_pow]
  omega

end FrameHeader

structure HeartbeatPayload where
  incarnation : UInt32
  epochMs : UInt64
deriving DecidableEq

structure AnnouncePayload where
  incarnation : UInt32
  hostname : String
  controlAddr : SocketAddr
  version : String
deriving DecidableEq

structure LeavePayload where
  incarnation : UInt32
  reason : String
deriving DecidableEq

structure GossipEntry where
  nodeId : UInt16
  incarnation : UInt32
  state : NodeState
  epochMs : UInt64
deriving DecidableEq

structure GossipPayload where
  entries : List GossipEntry
deriving DecidableEq

def HeartbeatPayload.codec : Codec HeartbeatPayload :=
  (Codec.u32.pair .u64).restrict (fun p => (p.incarnation, p.epochMs)) (fun p => some ⟨p.1, p.2⟩)
    (fun _ => rfl)

def AnnouncePayload.codec : Codec AnnouncePayload :=
  (Codec.u32.pair (Codec.string.pair (SocketAddr.codec.pair .string))).restrict
    (fun p => (p.incarnation, p.hostname, p.controlAddr, p.version))
    (fun p => some ⟨p.1, p.2.1, p.2.2.1, p.2.2.2⟩) (fun _ => rfl)

def LeavePayload.codec : Codec LeavePayload :=
  (Codec.u32.pair .string).restrict (fun p => (p.incarnation, p.reason)) (fun p => some ⟨p.1, p.2⟩)
    (fun _ => rfl)

def GossipEntry.codec : Codec GossipEntry :=
  (Codec.u16.pair (Codec.u32.pair (NodeState.codec.pair .u64))).restrict
    (fun e => (e.nodeId, e.incarnation, e.state, e.epochMs))
    (fun p => some ⟨p.1, p.2.1, p.2.2.1, p.2.2.2⟩) (fun _ => rfl)

theorem GossipEntry.size_pos (e : GossipEntry) : 0 < GossipEntry.codec.size e :=
  Nat.lt_of_lt_of_le (varintSize_pos _) (Nat.le_add_right _ _)

def GossipPayload.codec : Codec GossipPayload :=
  (Codec.seq GossipEntry.codec GossipEntry.size_pos).restrict GossipPayload.entries
    (fun es => some ⟨es⟩) (fun _ => rfl)

/-- A discovery payload after its type byte has been read. Votes and acks are
received but carry nothing the daemon looks at. -/
inductive Message where
  | heartbeat (pl : HeartbeatPayload)
  | announce (pl : AnnouncePayload)
  | leave (pl : LeavePayload)
  | gossip (pl : GossipPayload)
  | ignored
deriving DecidableEq

/-- A discovery frame as its receiver sees it: the sender's id from the header and
the decoded payload. -/
structure Frame where
  nodeId : UInt16
  message : Message
deriving DecidableEq

end Hivebus.Proto
