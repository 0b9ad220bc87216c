import Hivebus.Bus.Machine
import Hivebus.Pxeboot.Control
import Hivebus.Proofs.ControlView
import Hivebus.Proofs.Envelope

namespace Hivebus.Proofs.Replies
open Lib Proto ControlView Envelope

/-- Bytes on the control socket that a daemon reads as a request, other than the one
to shut down. -/
structure RequestFrame where
  stream : List UInt8
  payload : List UInt8
  rest : List UInt8
  op : ControlOp
  read : readEnvelope stream = .ok (payload, rest)
  decoded : decodeControl ControlOp.codec payload = some op
  running : op ≠ .shutdown

/-- The daemon has a reply, writes a frame, and the client reads that reply in it. -/
def Answered (reply : ControlOp → Option ControlReply) (refusal : List UInt8 → String)
    (r : RequestFrame) : Prop :=
  ∃ v f, reply r.op = some v ∧ serve reply refusal r.stream = some f ∧ readReply f = some v

theorem serve_eq (reply : ControlOp → Option ControlReply) (refusal : List UInt8 → String)
    (r : RequestFrame) :
    serve reply refusal r.stream =
      (reply r.op).bind (fun v => (encodeControl ControlReply.codec v).toOption) := by
  simp only [serve, r.read, r.decoded]

/-- A reply gets through exactly when the reader's limit lets it. -/
theorem answered_iff {reply : ControlOp → Option ControlReply} {refusal : List UInt8 → String}
    {r : RequestFrame} (v : ControlReply) (hv : reply r.op = some v) :
    Answered reply refusal r ↔ ControlReply.codec.size v ≤ maxControlPayload := by
  have hmax : maxControlPayload < 2 ^ 16 := by decide
  constructor
  · intro answered
    obtain ⟨w, f, hw, hf, hr⟩ := answered
    rw [hv] at hw
    cases hw
    rw [serve_eq, hv, Option.bind_some] at hf
    obtain ⟨hs, rfl⟩ := encode_ok_iff.mp (toOption_eq_some.mp hf)
    have hread := read_frame (ControlReply.codec.encode v) [] (by simpa using hs)
    rw [List.append_nil, ControlReply.codec.length_encode] at hread
    by_contra hlt
    rw [if_pos (Nat.lt_of_not_le hlt)] at hread
    simp only [readReply, hread, reduceCtorEq] at hr
  · intro hs
    have hu : ControlReply.codec.size v < 2 ^ 16 := Nat.lt_of_le_of_lt hs hmax
    have hok : encodeControl ControlReply.codec v = .ok (frame (ControlReply.codec.encode v)) :=
      encode_ok_iff.mpr ⟨hu, rfl⟩
    obtain ⟨payload, hread, hdec⟩ := round_trips_of_size hs _ hok []
    rw [List.append_nil] at hread
    refine ⟨v, frame (ControlReply.codec.encode v), hv, ?_, ?_⟩
    · rw [serve_eq, hv, Option.bind_some, hok]
      rfl
    · simp only [readReply, hread, hdec]

/-- Room for a text: its length and its bytes. -/
def textSize (s : String) : Nat := varintSize s.utf8ByteSize + s.utf8ByteSize

def addrSize : SocketAddr → Nat
  | .v4 _ port => 5 + varintSize port.toNat
  | .v6 _ port => 17 + varintSize port.toNat

/-- Room for the record of a node. -/
def recordSize (n : NodeInfo) : Nat :=
  varintSize n.nodeId.toNat + textSize n.hostname + addrSize n.controlAddr + 2 +
    varintSize n.incarnation.toNat + varintSize n.lastSeen.secs.toNat +
    varintSize n.lastSeen.nanos.toNat

theorem size_addr (a : SocketAddr) : SocketAddr.codec.size a = addrSize a := by
  cases a with
  | v4 ip port =>
    have h : SocketAddr.codec.size (.v4 ip port) = 1 + (4 + varintSize port.toNat) := rfl
    rw [h, addrSize]
    omega
  | v6 ip port =>
    have h : SocketAddr.codec.size (.v6 ip port) = 1 + (16 + varintSize port.toNat) := rfl
    rw [h, addrSize]
    omega

theorem size_record (n : NodeInfo) : NodeInfo.codec.size n = recordSize n := by
  have hstate : NodeState.codec.size n.state = 1 := by
    cases n.state <;> rfl
  have h : NodeInfo.codec.size n = varintSize n.nodeId.toNat + (Codec.string.size n.hostname +
      (SocketAddr.codec.size n.controlAddr + (NodeState.codec.size n.state +
        (varintSize n.incarnation.toNat + (varintSize n.lastSeen.secs.toNat +
          varintSize n.lastSeen.nanos.toNat + 1))))) := rfl
  rw [h, Codec.size_string, size_addr, hstate, recordSize, textSize]
  omega

/-- Room for the reply of a hivebus daemon, from its table and its own record. -/
def busReplySize (ord : Table.Order UInt16 NodeInfo) (d : Bus.Daemon) (now : SystemTime)
    (m : Bus.Members) : ControlOp → Nat
  | .getNodes =>
    1 + varintSize (m.pairs.length + 1) + (m.pairs.map (fun p => recordSize p.2)).sum +
      recordSize (Bus.localNodeInfo d now false)
  | .getMaster =>
    2 + ((Bus.masterFrom ord m d.selfId).bind m.lookup).elim
      (recordSize (Bus.localNodeInfo d now false)) recordSize
  | .stepDown | .custom _ _ => 16
  | .ping | .shutdown => 1

/-- The master flag takes one byte either way. -/
theorem recordSize_local (d : Bus.Daemon) (now : SystemTime) (b : Bool) :
    recordSize (Bus.localNodeInfo d now b) = recordSize (Bus.localNodeInfo d now false) := rfl

theorem size_nodes (ns : List NodeInfo) :
    ControlReply.codec.size (.nodes ns) = 1 + varintSize ns.length + (ns.map recordSize).sum := by
  have h : ControlReply.codec.size (.nodes ns) =
      1 + (varintSize ns.length + (ns.map NodeInfo.codec.size).sum) := rfl
  have hmap : ns.map NodeInfo.codec.size = ns.map recordSize :=
    List.map_congr_left (fun n _ => size_record n)
  rw [h, hmap]
  omega

theorem size_error (message : String) :
    ControlReply.codec.size (.error message) = 1 + textSize message := by
  rw [textSize, ← Codec.size_string]
  rfl

theorem size_getNodes (ord : Table.Order UInt16 NodeInfo) (d : Bus.Daemon) (now : SystemTime)
    (m : Bus.Members) :
    ControlReply.codec.size (.nodes (Bus.getNodes ord d now m)) =
      busReplySize ord d now m .getNodes := by
  have hp := getNodes_perm ord d now m
  have hv : (ord.values m).Perm (m.pairs.map Prod.snd) := (ord.perm m).map Prod.snd
  have hlen : (Bus.getNodes ord d now m).length = m.pairs.length + 1 := by
    rw [hp.length_eq, List.length_append, hv.length_eq, List.length_map]
    rfl
  have hsum : ((Bus.getNodes ord d now m).map recordSize).sum =
      (m.pairs.map (fun p => recordSize p.2)).sum + recordSize (Bus.localNodeInfo d now false) := by
    have hs := ((hv.map recordSize).sum_nat)
    rw [(hp.map recordSize).sum_nat, List.map_append, List.sum_append, hs, List.map_map]
    rfl
  rw [size_nodes, hlen, hsum, busReplySize]
  omega

theorem size_getMaster {m : Bus.Members} {d : Bus.Daemon} (hw : WellFormed m d.selfId)
    (ord : Table.Order UInt16 NodeInfo) (now : SystemTime) :
    ControlReply.codec.size (.master (Bus.getMaster ord d now m)) =
      busReplySize ord d now m .getMaster := by
  obtain ⟨n, hn, hl, hown, hpeer⟩ := getMaster_spec hw ord now
  have hsize : ControlReply.codec.size (.master (some n)) = 1 + (1 + NodeInfo.codec.size n) := rfl
  have hmaster := (masterFrom_iff hw ord n.nodeId).mpr hl
  rw [hn, hsize, size_record, busReplySize, hmaster, Option.bind_some]
  by_cases hs : n.nodeId = d.selfId
  · have hnone : m.lookup n.nodeId = none := by
      cases hr : m.lookup n.nodeId with
      | none => rfl
      | some r => exact absurd hs (hw n.nodeId r hr).2
    rw [hnone, hown hs, recordSize_local]
    simp only [Option.elim_none]
    omega
  · rw [hpeer hs]
    simp only [Option.elim_some]
    omega

/-- A hivebus daemon answers exactly the requests whose reply has room. -/
theorem bus_answered_iff {m : Bus.Members} {d : Bus.Daemon} (hw : WellFormed m d.selfId)
    (ord : Table.Order UInt16 NodeInfo) (now : SystemTime) (refusal : List UInt8 → String)
    (r : RequestFrame) :
    Answered (Bus.controlReply ord d now m) refusal r ↔
      busReplySize ord d now m r.op ≤ maxControlPayload := by
  cases hop : r.op with
  | ping => exact answered_iff .ok (by rw [hop]; rfl)
  | getNodes =>
    rw [← size_getNodes]
    exact answered_iff _ (by rw [hop]; rfl)
  | getMaster =>
    rw [← size_getMaster hw]
    exact answered_iff _ (by rw [hop]; rfl)
  | stepDown => exact answered_iff (.error "unsupported op") (by rw [hop]; rfl)
  | shutdown => exact absurd hop r.running
  | custom tag payload => exact answered_iff (.error "unsupported op") (by rw [hop]; rfl)

def entrySize (e : Pxeboot.BootEntry) : Nat :=
  textSize e.hostname + (if e.ip.isSome then 5 else 1) +
    (e.ipxeScript.elim 1 (fun path => 1 + textSize path)) + varintSize e.tags.pairs.length +
    (e.tags.pairs.map (fun p => textSize p.1 + textSize p.2)).sum

/-- Room for the table `boot.list` sends. -/
def listSize (boot : Pxeboot.BootTable) : Nat :=
  varintSize boot.pairs.length +
    (boot.pairs.map (fun p => textSize (Pxeboot.fmtMac p.1) + entrySize p.2)).sum

/-- Room for the reply of a pxeboot daemon, from its table and the request. -/
def pxebootReplySize (refusal : List UInt8 → String) (boot : Pxeboot.BootTable) : ControlOp → Nat
  | .custom tag payload =>
    if tag = "boot.register" then
      if (Pxeboot.decodeRegister payload).isSome then 1 else 1 + textSize (refusal payload)
    else if tag = "boot.list" then 11 + varintSize (listSize boot) + listSize boot
    else 1 + textSize ("unknown tag: " ++ tag)
  | .getNodes | .getMaster | .stepDown => 16
  | .ping | .shutdown => 1

theorem size_entry (ord : Table.Order String String) (e : Pxeboot.BootEntry) :
    Pxeboot.BootEntry.codec.size (e.toWire ord) = entrySize e := by
  have htag : ∀ p : String × String,
      (Codec.string.pair .string).size p = textSize p.1 + textSize p.2 := by
    intro p
    rw [textSize, textSize, ← Codec.size_string, ← Codec.size_string]
    rfl
  have hperm := ord.perm e.tags
  have hsum : ((ord.list e.tags).map (Codec.string.pair .string).size).sum =
      (e.tags.pairs.map (fun p => textSize p.1 + textSize p.2)).sum := by
    rw [(hperm.map _).sum_nat]
    exact congrArg List.sum (List.map_congr_left (fun p _ => htag p))
  have h : Pxeboot.BootEntry.codec.size (e.toWire ord) = Codec.string.size e.hostname +
      (Ipv4Addr.codec.option.size e.ip + (Codec.string.option.size e.ipxeScript +
        (varintSize (ord.list e.tags).length +
          ((ord.list e.tags).map (Codec.string.pair .string).size).sum))) := rfl
  have hip : Ipv4Addr.codec.option.size e.ip = if e.ip.isSome then 5 else 1 := by
    cases e.ip <;> rfl
  have hscript : Codec.string.option.size e.ipxeScript =
      e.ipxeScript.elim 1 (fun path => 1 + textSize path) := by
    cases e.ipxeScript with
    | none => rfl
    | some path =>
      simp only [Option.elim_some, textSize, ← Codec.size_string]
      rfl
  rw [h, Codec.size_string, hip, hscript, hperm.length_eq, hsum, entrySize, textSize]
  omega

theorem size_list (ord : Pxeboot.Orders) (boot : Pxeboot.BootTable) :
    Pxeboot.listCodec.size (Pxeboot.listEntries ord boot) = listSize boot := by
  have hentry : ∀ p : Pxeboot.Mac × Pxeboot.BootEntry,
      (Codec.string.pair Pxeboot.BootEntry.codec).size
        (Pxeboot.fmtMac p.1, p.2.toWire (ord.tags p.1)) =
      textSize (Pxeboot.fmtMac p.1) + entrySize p.2 := by
    intro p
    rw [← size_entry (ord.tags p.1), textSize, ← Codec.size_string]
    rfl
  have hperm := ord.boot.perm boot
  have h : Pxeboot.listCodec.size (Pxeboot.listEntries ord boot) =
      varintSize (Pxeboot.listEntries ord boot).length +
        ((Pxeboot.listEntries ord boot).map
          (Codec.string.pair Pxeboot.BootEntry.codec).size).sum := rfl
  rw [h, Pxeboot.listEntries, List.length_map, hperm.length_eq, List.map_map,
    (hperm.map _).sum_nat, listSize]
  congr 2
  exact List.map_congr_left (fun p _ => hentry p)

theorem size_data (tag : String) (payload : List UInt8) :
    ControlReply.codec.size (.data tag payload) =
      1 + textSize tag + (varintSize payload.length + payload.length) := by
  have h : ControlReply.codec.size (.data tag payload) =
      1 + (Codec.string.size tag + Codec.bytes.size payload) := rfl
  rw [h, Codec.size_string, Codec.size_bytes, textSize]
  omega

/-- A pxeboot daemon answers exactly the requests whose reply has room. -/
theorem pxeboot_answered_iff (ord : Pxeboot.Orders) (boot : Pxeboot.BootTable)
    (refusal : List UInt8 → String) (r : RequestFrame) :
    Answered (Pxeboot.controlReply ord refusal boot) refusal r ↔
      pxebootReplySize refusal boot r.op ≤ maxControlPayload := by
  cases hop : r.op with
  | ping => exact answered_iff .ok (by rw [hop]; rfl)
  | getNodes => exact answered_iff (.error "unsupported op") (by rw [hop]; rfl)
  | getMaster => exact answered_iff (.error "unsupported op") (by rw [hop]; rfl)
  | stepDown => exact answered_iff (.error "unsupported op") (by rw [hop]; rfl)
  | shutdown => exact absurd hop r.running
  | custom tag payload =>
    rw [pxebootReplySize]
    split
    · next hreg =>
      cases hd : Pxeboot.decodeRegister payload with
      | some p =>
        exact answered_iff .ok (by rw [hop]; simp only [Pxeboot.controlReply, hreg, hd, ↓reduceIte])
      | none =>
        simp only [Option.isSome_none, Bool.false_eq_true, ↓reduceIte, ← size_error]
        exact answered_iff _ (by rw [hop]; simp only [Pxeboot.controlReply, hreg, hd, ↓reduceIte])
    · next hreg =>
      split
      · next hlist =>
        have htag : textSize "boot.list" = 10 := by decide
        have hsize : 11 + varintSize (listSize boot) + listSize boot =
            ControlReply.codec.size (.data "boot.list"
              (Pxeboot.listCodec.encode (Pxeboot.listEntries ord boot))) := by
          rw [size_data, Codec.length_encode, size_list, htag]
          omega
        rw [hsize]
        exact answered_iff _ (by rw [hop, Pxeboot.controlReply, if_neg hreg, if_pos hlist])
      · next hlist =>
        rw [← size_error]
        exact answered_iff _ (by rw [hop, Pxeboot.controlReply, if_neg hreg, if_neg hlist])

/-- In every state a daemon can reach, a request is answered if and only if the reply
fits the limit of the reader. -/
theorem control_answered_iff (ord view : Table.Order UInt16 NodeInfo) (d : Bus.Daemon)
    (es : List Bus.Event) (now : SystemTime) (cfg : Pxeboot.Config) (fs : List Pxeboot.Event)
    (walk : Pxeboot.Orders) (refusal : List UInt8 → String) (r : RequestFrame) :
    (Answered (Bus.controlReply view d now (Bus.run ord d es).members) refusal r ↔
      busReplySize view d now (Bus.run ord d es).members r.op ≤ maxControlPayload) ∧
    (Answered (Pxeboot.controlReply walk refusal (Pxeboot.run cfg fs).boot) refusal r ↔
      pxebootReplySize refusal (Pxeboot.run cfg fs).boot r.op ≤ maxControlPayload) :=
  ⟨bus_answered_iff (run_wellFormed ord d es) view now refusal r,
    pxeboot_answered_iff walk (Pxeboot.run cfg fs).boot refusal r⟩

/-- The frame a client sends for a request. -/
def requestFrame (op : ControlOp) (hs : ControlOp.codec.size op ≤ maxControlPayload)
    (hop : op ≠ .shutdown) : RequestFrame where
  stream := frame (ControlOp.codec.encode op)
  payload := ControlOp.codec.encode op
  rest := []
  op := op
  read := by
    have hu : maxControlPayload < 2 ^ 16 := by decide
    have h := read_frame (ControlOp.codec.encode op) [] (by
      rw [Codec.length_encode]
      exact Nat.lt_of_le_of_lt hs hu)
    rw [List.append_nil, Codec.length_encode, if_neg (Nat.not_lt.mpr hs)] at h
    exact h
  decoded := by
    have hu : maxControlPayload < 2 ^ 64 := by decide
    exact decode_encoded ControlOp.codec op (Nat.lt_of_le_of_lt hs hu)
  running := hop

def listRequest : RequestFrame := requestFrame (.custom "boot.list" []) (by decide) (by decide)

def longName : Nat → String
  | 0 => ""
  | n + 1 => (longName n).push 'a'

theorem longName_size (n : Nat) : (longName n).utf8ByteSize = n := by
  induction n with
  | zero => rfl
  | succ n ih =>
    have hc : 'a'.utf8Size = 1 := rfl
    rw [longName, String.utf8ByteSize_push, ih, hc]

/-- Two clients registered under one name. -/
def twoNamed (hostname : String) : List Pxeboot.Event :=
  [.register ⟨[0x52, 0x54, 0, 0, 0, 1], rfl⟩ ⟨hostname, none, none, ∅⟩,
    .register ⟨[0x52, 0x54, 0, 0, 0, 2], rfl⟩ ⟨hostname, none, none, ∅⟩]

theorem listSize_twoNamed (hostname : String) :
    2 * hostname.utf8ByteSize ≤
      listSize (Pxeboot.run Pxeboot.seedConfig (twoNamed hostname)).boot := by
  have hp : (Pxeboot.run Pxeboot.seedConfig (twoNamed hostname)).boot.pairs =
      [(⟨[0x52, 0x54, 0, 0, 0, 2], rfl⟩, ⟨hostname, none, none, ∅⟩),
        (⟨[0x52, 0x54, 0, 0, 0, 1], rfl⟩, ⟨hostname, none, none, ∅⟩)] := rfl
  simp only [listSize, hp, List.map_cons, List.map_nil, List.sum_cons, List.sum_nil, entrySize,
    textSize]
  omega

theorem long_names_unanswered {hostname : String}
    (h : maxControlPayload < 2 * hostname.utf8ByteSize) :
    ¬ Answered (Pxeboot.controlReply ⟨.newest, fun _ => .newest⟩ (fun _ => "")
      (Pxeboot.run Pxeboot.seedConfig (twoNamed hostname)).boot) (fun _ => "") listRequest := by
  rw [pxeboot_answered_iff]
  have hl := listSize_twoNamed hostname
  have hsize : pxebootReplySize (fun _ => "")
      (Pxeboot.run Pxeboot.seedConfig (twoNamed hostname)).boot listRequest.op =
      11 + varintSize (listSize (Pxeboot.run Pxeboot.seedConfig (twoNamed hostname)).boot) +
        listSize (Pxeboot.run Pxeboot.seedConfig (twoNamed hostname)).boot := rfl
  omega

/-- Two entries with names of 40000 bytes, each registered with a request of its own,
and `boot.list` has no answer any more. -/
theorem boot_list_unanswered :
    ¬ Answered (Pxeboot.controlReply ⟨.newest, fun _ => .newest⟩ (fun _ => "")
      (Pxeboot.run Pxeboot.seedConfig (twoNamed (longName 40000))).boot) (fun _ => "")
      listRequest := by
  apply long_names_unanswered
  rw [longName_size]
  decide

end Hivebus.Proofs.Replies
