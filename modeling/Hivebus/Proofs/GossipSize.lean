import Mathlib.Data.List.Induction
import Hivebus.Bus.Machine
import Hivebus.Proofs.Discovery

namespace Hivebus.Proofs.GossipSize
open Lib Proto Bus Discovery

/-- What a record's gossip entry must repeat of it. -/
def essence (n : NodeInfo) : UInt16 × UInt32 × NodeState := (n.nodeId, n.incarnation, n.state)

/-- One round sends a frame of at most 508 bytes, and whoever decodes it finds exactly
one entry for each record of the table. -/
def Delivers (ord : Table.Order UInt16 NodeInfo) (d : Daemon) (epochMs : Nat → UInt64)
    (seq : UInt8) (m : Members) : Prop :=
  ∃ buf entries, (gossipRound ord d epochMs seq m).2 = some buf ∧ buf.length ≤ 508 ∧
    decodeFrame buf = some ⟨d.selfId, .gossip ⟨entries⟩⟩ ∧
    (entries.map (fun e => (e.nodeId, e.incarnation, e.state))).Perm
      (m.pairs.map (fun p => essence p.2))

/-- The bytes a frame about a table takes: the header, the count, and for each record
its id, its incarnation, its state and a reading of the clock. -/
def frameSize (epochMs : Nat → UInt64) (m : Members) : Nat :=
  4 + varintSize m.pairs.length +
    (m.pairs.map (fun p =>
      varintSize p.2.nodeId.toNat + varintSize p.2.incarnation.toNat + 1)).sum +
    ((List.range m.pairs.length).map (fun i => varintSize (epochMs i).toNat)).sum

theorem size_state (st : NodeState) : NodeState.codec.size st = 1 := by
  cases st <;> rfl

theorem size_gossipEntry (epochMs : UInt64) (n : NodeInfo) :
    GossipEntry.codec.size (gossipEntry epochMs n) =
      (varintSize n.nodeId.toNat + varintSize n.incarnation.toNat + 1) +
        varintSize epochMs.toNat := by
  have h : GossipEntry.codec.size (gossipEntry epochMs n) =
      varintSize n.nodeId.toNat + (varintSize n.incarnation.toNat +
        (NodeState.codec.size n.state + varintSize epochMs.toNat)) := rfl
  rw [h, size_state]
  omega

/-- What the entries of a round take: one part for the records, one for the readings. -/
theorem sum_entries (epochMs : Nat → UInt64) (ns : List NodeInfo) :
    ((ns.mapIdx (fun i n => gossipEntry (epochMs i) n)).map GossipEntry.codec.size).sum =
      (ns.map (fun n => varintSize n.nodeId.toNat + varintSize n.incarnation.toNat + 1)).sum +
        ((List.range ns.length).map (fun i => varintSize (epochMs i).toNat)).sum := by
  induction ns using List.reverseRecOn with
  | nil => rfl
  | append_singleton ns n ih =>
    simp only [List.mapIdx_concat, List.map_append, List.sum_append, ih, List.length_append,
      List.length_singleton, List.range_succ, List.map_cons, List.map_nil, List.sum_cons,
      List.sum_nil, size_gossipEntry]
    omega

theorem length_values (ord : Table.Order UInt16 NodeInfo) (m : Members) :
    (ord.values m).length = m.pairs.length := by
  rw [Table.Order.values, List.length_map, (ord.perm m).length_eq]

/-- The bytes of a round's frame, whatever the order the table is listed in. -/
theorem length_frame (ord : Table.Order UInt16 NodeInfo) (epochMs : Nat → UInt64)
    (header : FrameHeader) (m : Members) :
    (header.toBytes ++ GossipPayload.codec.encode ⟨gossipEntries ord epochMs m⟩).length =
      frameSize epochMs m := by
  have hsum : ((gossipEntries ord epochMs m).map GossipEntry.codec.size).sum =
      (m.pairs.map (fun p =>
        varintSize p.2.nodeId.toNat + varintSize p.2.incarnation.toNat + 1)).sum +
      ((List.range m.pairs.length).map (fun i => varintSize (epochMs i).toNat)).sum := by
    rw [gossipEntries, sum_entries, length_values, Table.Order.values, List.map_map]
    congr 1
    exact ((ord.perm m).map _).sum_nat
  have hlen : (gossipEntries ord epochMs m).length = m.pairs.length := by
    rw [gossipEntries, List.length_mapIdx, length_values]
  have hsize : GossipPayload.codec.size ⟨gossipEntries ord epochMs m⟩ =
      varintSize (gossipEntries ord epochMs m).length +
        ((gossipEntries ord epochMs m).map GossipEntry.codec.size).sum := rfl
  rw [List.length_append, Codec.length_encode, hsize, hlen, hsum, frameSize]
  simp only [FrameHeader.toBytes, List.length_cons, List.length_nil]
  omega

/-- What a round sends, if anything. -/
theorem gossipRound_sends {ord : Table.Order UInt16 NodeInfo} {d : Daemon}
    {epochMs : Nat → UInt64} {seq : UInt8} {m : Members} {buf : List UInt8}
    (hm : m.pairs ≠ []) :
    (gossipRound ord d epochMs seq m).2 = some buf ↔
      frameSize epochMs m ≤ maxFrame ∧
      buf = (FrameHeader.new .gossip seq d.selfId).toBytes ++
        GossipPayload.codec.encode ⟨gossipEntries ord epochMs m⟩ := by
  have hne : (gossipEntries ord epochMs m).isEmpty = false := by
    rw [List.isEmpty_eq_false_iff, ← List.length_pos_iff, gossipEntries, List.length_mapIdx,
      length_values]
    exact List.length_pos_iff.mpr hm
  simp only [gossipRound, hne, encodeFrame, length_frame, Bool.false_eq_true, ↓reduceIte]
  split
  · next hbig => simp [Except.toOption, Nat.not_le.mpr hbig]
  · next hfit => simp [Except.toOption, Nat.not_lt.mp hfit, eq_comm]

/-- Whatever a round sends decodes to the entries of the round. -/
theorem gossipRound_decodes {ord : Table.Order UInt16 NodeInfo} {d : Daemon}
    {epochs : Nat → UInt64} {seq : UInt8} {m : Members} {data : List UInt8}
    (h : (gossipRound ord d epochs seq m).2 = some data) :
    decodeFrame data = some ⟨d.selfId, .gossip ⟨gossipEntries ord epochs m⟩⟩ := by
  simp only [gossipRound] at h
  split at h
  · cases h
  · have hsent : encodeMessage seq d.selfId (.gossip ⟨gossipEntries ord epochs m⟩) = .ok data :=
      toOption_eq_some.mp h
    exact decodeFrame_encodeMessage hsent

/-- A table with one record is gossiped whole. -/
theorem gossipRound_singleton (ord : Table.Order UInt16 NodeInfo) (d : Daemon)
    (epochs : Nat → UInt64) (seq : UInt8) (n : UInt16) (r : NodeInfo) :
    ∃ data, (gossipRound ord d epochs seq (AList.singleton n r)).2 = some data ∧
      decodeFrame data = some ⟨d.selfId, .gossip ⟨[gossipEntry (epochs 0) r]⟩⟩ := by
  have hpairs : Table.pairs (AList.singleton n r) = [(n, r)] := rfl
  have hfit : frameSize epochs (AList.singleton n r) ≤ maxFrame := by
    have h1 := varintSize_le r.nodeId.toNat
    have h2 := varintSize_le r.incarnation.toNat
    have h3 := varintSize_le (epochs 0).toNat
    have h4 := varintSize_le 1
    simp only [frameSize, hpairs, maxFrame, List.length_singleton, List.map_singleton,
      List.sum_singleton, List.range_one]
    omega
  have hsent : (gossipRound ord d epochs seq (AList.singleton n r)).2 = some _ :=
    (gossipRound_sends (by simp [hpairs])).mpr ⟨hfit, rfl⟩
  have hvalues : ord.values (AList.singleton n r) = [r] := by
    have hperm := ord.perm (AList.singleton n r)
    rw [hpairs, List.perm_singleton] at hperm
    rw [Table.Order.values, hperm]
    rfl
  have hentries : gossipEntries ord epochs (AList.singleton n r) = [gossipEntry (epochs 0) r] := by
    rw [gossipEntries, hvalues]
    rfl
  refine ⟨_, hsent, ?_⟩
  rw [gossipRound_decodes hsent, hentries]

theorem gossipEntries_essence (ord : Table.Order UInt16 NodeInfo) (epochMs : Nat → UInt64)
    (m : Members) :
    ((gossipEntries ord epochMs m).map (fun e => (e.nodeId, e.incarnation, e.state))).Perm
      (m.pairs.map (fun p => essence p.2)) := by
  have h : (gossipEntries ord epochMs m).map (fun e => (e.nodeId, e.incarnation, e.state)) =
      (ord.values m).map essence := by
    apply List.ext_getElem
    · simp [gossipEntries]
    · intro i _ _
      simp [gossipEntries, gossipEntry, essence]
  rw [h, Table.Order.values, List.map_map]
  exact (ord.perm m).map _

/-- For every table that is not empty, any order it is listed in and any readings of
the clock, a round delivers the table exactly when the frame about it fits. -/
theorem gossip_delivers_iff (ord : Table.Order UInt16 NodeInfo) (d : Daemon)
    (epochMs : Nat → UInt64) (seq : UInt8) {m : Members} (hm : m.pairs ≠ []) :
    Delivers ord d epochMs seq m ↔ frameSize epochMs m ≤ 508 := by
  constructor
  · intro h
    obtain ⟨buf, entries, hsent, _⟩ := h
    exact ((gossipRound_sends hm).mp hsent).1
  · intro hfit
    have hlen := length_frame ord epochMs (FrameHeader.new .gossip seq d.selfId) m
    have hsent : (gossipRound ord d epochMs seq m).2 = some _ :=
      (gossipRound_sends hm).mpr ⟨hfit, rfl⟩
    refine ⟨_, gossipEntries ord epochMs m, hsent, ?_, gossipRound_decodes hsent,
      gossipEntries_essence ord epochMs m⟩
    rw [hlen]
    exact hfit

/-- The table after one heartbeat of each of the nodes 1 to `n`. -/
def crowd (n : Nat) : Members :=
  (List.range n).foldl (fun m i =>
    onHeartbeat (.early 0) (peer (UInt32.ofNat i)) (UInt16.ofNat (i + 1)) ⟨1, 0⟩ m) ∅

/-- A reading of the clock in milliseconds, in the autumn of 2023. -/
def autumn : Nat → UInt64 := fun _ => 1700000000000

theorem three_nodes_delivered :
    (crowd 3).pairs ≠ [] ∧ Delivers .newest node2 autumn 0 (crowd 3) := by
  have hne : (crowd 3).pairs ≠ [] := by decide
  have hfit : frameSize autumn (crowd 3) ≤ 508 := by decide
  exact ⟨hne, (gossip_delivers_iff .newest node2 autumn 0 hne).mpr hfit⟩

/-- Once the table holds forty-two nodes, nothing is sent any more. -/
theorem forty_two_nodes_not_delivered :
    (crowd 42).pairs ≠ [] ∧ ¬ Delivers .newest node2 autumn 0 (crowd 42) := by
  have hne : (crowd 42).pairs ≠ [] := by decide +kernel
  have hbig : ¬ frameSize autumn (crowd 42) ≤ maxFrame := by decide +kernel
  refine ⟨hne, ?_⟩
  intro h
  obtain ⟨buf, entries, hsent, _⟩ := h
  exact hbig ((gossipRound_sends hne).mp hsent).1

end Hivebus.Proofs.GossipSize
