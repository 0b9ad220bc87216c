import Hivebus.Bus.Gossip

namespace Hivebus.Proofs.Discovery
open Lib Proto Bus

/-- What the encoder makes of a payload fits the listener's buffer, its header is read back
with the type, the low four bits of the sequence number and the node id, and what follows
the header decodes to the payload. -/
def RoundTrips {α : Type} (c : Codec α) (t : MsgType) (seq : UInt8) (nid : UInt16) (p : α) : Prop :=
  ∀ buf, encodeFrame c (FrameHeader.new t seq nid) p = .ok buf →
    buf.length ≤ recvBuffer ∧
    (∃ h, FrameHeader.fromBytes buf = some h ∧ h.msgType = some t ∧ h.seq = seq % 16 ∧
      h.nodeId = nid) ∧
    (c.decode (buf.drop 4)).map Prod.fst = some p

theorem encodeFrame_ok {α : Type} {c : Codec α} {header : FrameHeader} {p : α} {buf : List UInt8}
    (h : encodeFrame c header p = .ok buf) :
    buf = header.toBytes ++ c.encode p ∧ buf.length ≤ maxFrame ∧ c.size p < 2 ^ 64 := by
  unfold encodeFrame at h
  simp only at h
  split at h
  · cases h
  · next hfit =>
    cases h
    have hle := Nat.not_lt.mp hfit
    have hlen := hle
    rw [List.length_append, Codec.length_encode] at hlen
    have : maxFrame < 2 ^ 64 := by decide
    exact ⟨rfl, hle, by omega⟩

/-- The payload of a frame is what stands behind its header. -/
theorem decode_payload {α : Type} {c : Codec α} (header : FrameHeader) {p : α}
    (hs : c.size p < 2 ^ 64) :
    c.decode ((header.toBytes ++ c.encode p).drop 4) = some (p, []) := by
  have hdrop : (header.toBytes ++ c.encode p).drop 4 = c.encode p := rfl
  have hdec := c.decode_encode p [] hs
  rw [List.append_nil] at hdec
  rw [hdrop, hdec]

theorem round_trips {α : Type} (c : Codec α) (t : MsgType) (seq : UInt8) (nid : UInt16) (p : α) :
    RoundTrips c t seq nid p := by
  intro buf hbuf
  obtain ⟨rfl, hle, hs⟩ := encodeFrame_ok hbuf
  refine ⟨Nat.le_trans hle (by decide), ⟨FrameHeader.new t seq nid,
    FrameHeader.fromBytes_new t seq nid _, FrameHeader.msgType_new t seq nid,
    FrameHeader.seq_new t seq nid, FrameHeader.nodeId_new t seq nid⟩, ?_⟩
  rw [decode_payload _ hs]
  rfl

/-- What a daemon sends: a payload under the type it belongs to. -/
def encodeMessage (seq : UInt8) (nid : UInt16) : Message → Except String (List UInt8)
  | .heartbeat pl => encodeFrame HeartbeatPayload.codec (.new .heartbeat seq nid) pl
  | .announce pl => encodeFrame AnnouncePayload.codec (.new .announce seq nid) pl
  | .leave pl => encodeFrame LeavePayload.codec (.new .leave seq nid) pl
  | .gossip pl => encodeFrame GossipPayload.codec (.new .gossip seq nid) pl
  | .ignored => .error "no payload"

/-- The listener finds in a frame what was put into it. -/
theorem decodeFrame_encodeMessage {seq : UInt8} {nid : UInt16} {msg : Message} {buf : List UInt8}
    (h : encodeMessage seq nid msg = .ok buf) : decodeFrame buf = some ⟨nid, msg⟩ := by
  cases msg with
  | ignored => cases h
  | heartbeat pl =>
    obtain ⟨rfl, _, hs⟩ := encodeFrame_ok h
    simp only [decodeFrame, FrameHeader.fromBytes_new, FrameHeader.msgType_new, decode_payload _ hs,
      Option.map_some, FrameHeader.nodeId_new]
  | announce pl =>
    obtain ⟨rfl, _, hs⟩ := encodeFrame_ok h
    simp only [decodeFrame, FrameHeader.fromBytes_new, FrameHeader.msgType_new, decode_payload _ hs,
      Option.map_some, FrameHeader.nodeId_new]
  | leave pl =>
    obtain ⟨rfl, _, hs⟩ := encodeFrame_ok h
    simp only [decodeFrame, FrameHeader.fromBytes_new, FrameHeader.msgType_new, decode_payload _ hs,
      Option.map_some, FrameHeader.nodeId_new]
  | gossip pl =>
    obtain ⟨rfl, _, hs⟩ := encodeFrame_ok h
    simp only [decodeFrame, FrameHeader.fromBytes_new, FrameHeader.msgType_new, decode_payload _ hs,
      Option.map_some, FrameHeader.nodeId_new]

/-- Discovery frames round trip, for every type, sequence number, node id and payload; what
the listener reads is what was sent; and a header that is accepted is reproduced. -/
theorem discovery_round_trip :
    (∀ t seq nid, (∀ p, RoundTrips HeartbeatPayload.codec t seq nid p) ∧
      (∀ p, RoundTrips AnnouncePayload.codec t seq nid p) ∧
      (∀ p, RoundTrips LeavePayload.codec t seq nid p) ∧
      ∀ p, RoundTrips GossipPayload.codec t seq nid p) ∧
    (∀ seq nid msg buf, encodeMessage seq nid msg = .ok buf → decodeFrame buf = some ⟨nid, msg⟩) ∧
    ∀ bs h, FrameHeader.fromBytes bs = some h → h.toBytes = bs.take 4 := by
  refine ⟨?_, ?_, ?_⟩
  · intro t seq nid
    exact ⟨round_trips _ t seq nid, round_trips _ t seq nid, round_trips _ t seq nid,
      round_trips _ t seq nid⟩
  · intro seq nid msg buf h
    exact decodeFrame_encodeMessage h
  · intro bs h hb
    exact FrameHeader.toBytes_of_fromBytes hb

end Hivebus.Proofs.Discovery
