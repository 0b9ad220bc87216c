import Hivebus.Hivectl.Query
import Hivebus.Proofs.Replies

namespace Hivebus.Proofs.ClusterView
open Lib Proto ControlView Envelope Replies Hivectl

/-- More bytes behind a frame do not change what is read. -/
theorem readEnvelope_append {xs payload rest : List UInt8}
    (h : readEnvelope xs = .ok (payload, rest)) (ys : List UInt8) :
    readEnvelope (xs ++ ys) = .ok (payload, rest ++ ys) := by
  match xs with
  | [] => cases h
  | [_] => cases h
  | [_, _] => cases h
  | m :: hi :: lo :: body =>
    simp only [List.cons_append, readEnvelope] at h ⊢
    split at h
    · cases h
    · next hm =>
      rw [if_neg hm]
      split at h
      · cases h
      · next hl =>
        rw [if_neg hl]
        simp only [takeBytes] at h ⊢
        split at h
        · next p hp =>
          cases h
          split at hp
          · next hb =>
            obtain ⟨rfl, rfl⟩ := Prod.mk.inj (Option.some.inj hp)
            rw [if_pos (by rw [List.length_append]; omega), List.take_append_of_le_length hb,
              List.drop_append_of_le_length hb]
          · cases hp
        · cases h

/-- Whatever part of a frame arrives, what is read from it is the frame's payload. -/
theorem read_part {payload p rest : List UInt8} {n : Nat} (hl : payload.length < 2 ^ 16)
    (h : readEnvelope ((frame payload).take n) = .ok (p, rest)) : p = payload := by
  have ha := readEnvelope_append h ((frame payload).drop n ++ [])
  rw [← List.append_assoc, List.take_append_drop, read_frame payload [] hl] at ha
  split at ha
  · cases ha
  · obtain ⟨hp, _⟩ := Prod.mk.inj (Except.ok.inj ha)
    exact hp.symm

section Call

variable {reply : ControlOp → Option ControlReply} {refusal : List UInt8 → String}
  {op : ControlOp} {v : ControlReply}

theorem encoded_op (hs : ControlOp.codec.size op ≤ maxControlPayload) :
    encodeControl ControlOp.codec op = .ok (frame (ControlOp.codec.encode op)) :=
  encode_ok_iff.mpr ⟨Nat.lt_of_le_of_lt hs (by decide), rfl⟩

/-- The reply a client reads is the one the daemon gave, wherever the connection breaks. -/
theorem sendOp_sound (hs : ControlOp.codec.size op ≤ maxControlPayload) (hop : op ≠ .shutdown)
    (hv : reply op = some v) {w : Bool} {n : Nat} {r : ControlReply}
    (h : sendOp ⟨serve reply refusal, w, n⟩ op = .ok r) : r = v := by
  have hserve := serve_eq reply refusal (requestFrame op hs hop)
  simp only [requestFrame, hv, Option.bind_some] at hserve
  simp only [sendOp, encoded_op hs, hserve] at h
  split at h
  · cases he : encodeControl ControlReply.codec v with
    | error e =>
      simp [he, Except.toOption, readEnvelope] at h
    | ok f =>
      obtain ⟨hu, rfl⟩ := encode_ok_iff.mp he
      simp only [he, Except.toOption, Option.getD_some] at h
      split at h
      · cases h
      · next p rest hr =>
        have hp := read_part (by simpa using hu) hr
        rw [hp, decode_encoded ControlReply.codec v (Nat.lt_trans hu (by decide))] at h
        cases h
        rfl
  · cases h

/-- A reply that has room gets through a connection that does not break. -/
theorem sendOp_complete (hs : ControlOp.codec.size op ≤ maxControlPayload) (hop : op ≠ .shutdown)
    (hv : reply op = some v) (hr : ControlReply.codec.size v ≤ maxControlPayload) {n : Nat}
    (hn : maxControlPayload + 3 ≤ n) : sendOp ⟨serve reply refusal, true, n⟩ op = .ok v := by
  have hserve := serve_eq reply refusal (requestFrame op hs hop)
  have hu : ControlReply.codec.size v < 2 ^ 16 := Nat.lt_of_le_of_lt hr (by decide)
  have hok : encodeControl ControlReply.codec v = .ok (frame (ControlReply.codec.encode v)) :=
    encode_ok_iff.mpr ⟨hu, rfl⟩
  have hlen : (frame (ControlReply.codec.encode v)).length ≤ n := by
    simp only [frame, List.cons_append, List.length_cons, List.length_append, length_beBytes,
      Codec.length_encode]
    omega
  have hread := read_frame (ControlReply.codec.encode v) [] (by simpa using hu)
  rw [List.append_nil, Codec.length_encode, if_neg (Nat.not_lt.mpr hr)] at hread
  simp only [requestFrame, hv, Option.bind_some, hok, Except.toOption] at hserve
  simp only [sendOp, encoded_op hs, hserve, Option.getD_some, List.take_of_length_le hlen, hread,
    decode_encoded ControlReply.codec v (Nat.lt_trans hu (by decide)), ↓reduceIte]

end Call

/-- The id is shown: it belongs to a listed node that is Alive in the list. -/
def Shown (nodes : List NodeInfo) (id : UInt16) : Prop :=
  ∃ n ∈ nodes, n.nodeId = id ∧ n.state = .alive

/-- The list shows the daemon and the peers its table has Alive, no one else. -/
theorem shown_getNodes {m : Bus.Members} {d : Bus.Daemon} (hw : WellFormed m d.selfId)
    (ord : Table.Order UInt16 NodeInfo) (now : SystemTime) (id : UInt16) :
    Shown (Bus.getNodes ord d now m) id ↔ id = d.selfId ∨ AliveIn m id := by
  have hp := getNodes_perm ord d now m
  constructor
  · intro shown
    obtain ⟨n, hn, rfl, hs⟩ := shown
    rcases List.mem_append.mp (hp.mem_iff.mp hn) with hv | hown
    · obtain ⟨k, hk⟩ := ord.mem_values.mp hv
      have hid := (hw k n hk).1
      subst hid
      exact .inr ⟨n, hk, hs⟩
    · rw [List.mem_singleton] at hown
      rw [hown]
      exact .inl rfl
  · intro h
    rcases h with rfl | ⟨r, hr, hs⟩
    · exact ⟨_, hp.mem_iff.mpr (List.mem_append_right _ (List.mem_singleton_self _)), rfl, rfl⟩
    · exact ⟨r, hp.mem_iff.mpr (List.mem_append_left _ (ord.mem_values.mpr ⟨id, hr⟩)),
        (hw id r hr).1, hs⟩

/-- What a query can return: the list the daemon had for the first request, the master it
had for the second. -/
theorem query_ok {x : Session} {nodes : List NodeInfo} {master : Option UInt16}
    (h : x.query = .ok (nodes, master)) :
    nodes = Bus.getNodes x.nodesCall.view x.daemon x.nodesCall.now x.members ∧
      ∃ n, Bus.getMaster x.masterCall.view x.daemon x.masterCall.now x.membersLater = some n ∧
        master = some n.nodeId := by
  have hw := run_wellFormed x.ord x.daemon (x.before ++ x.between)
  obtain ⟨n, hn, _⟩ := getMaster_spec hw x.masterCall.view x.masterCall.now
  simp only [Session.query, Session.connect, queryHivebus] at h
  split at h
  · cases h
  · next s1 hs1 =>
    split at hs1
    · cases hs1
      split at h
      · cases h
      · next ns hsend =>
        have hlist := sendOp_sound (by decide) (by decide) rfl hsend
        split at h
        · cases h
        · next s2 hs2 =>
          split at hs2
          · cases hs2
            have hm : Bus.controlReply x.masterCall.view x.daemon x.masterCall.now
                x.membersLater .getMaster = some (.master (some n)) := by
              rw [Bus.controlReply]
              exact congrArg (fun m => some (ControlReply.master m)) hn
            split at h
            · cases h
            · next n' hsend' =>
              have hmaster := sendOp_sound (by decide) (by decide) hm hsend'
              cases hlist
              cases hmaster
              cases h
              exact ⟨rfl, n, hn, rfl⟩
            · next other hne hsend' =>
              have hmaster := sendOp_sound (by decide) (by decide) hm hsend'
              exact absurd hmaster (hne n)
          · cases hs2
      · cases h
      · cases h
    · cases hs1

/-- The list is the table of the first request, the master is elected from the table of
the second. The master is shown in the list exactly when it is the daemon itself or was
already Alive for the first request; so it is when no one has become Alive in between. -/
theorem query_view (x : Session) (nodes : List NodeInfo) (master : Option UInt16)
    (h : x.query = .ok (nodes, master)) :
    nodes = Bus.getNodes x.nodesCall.view x.daemon x.nodesCall.now x.members ∧
    ∃ id, master = some id ∧ Leads x.membersLater x.daemon.selfId id ∧
      (Shown nodes id ↔ id = x.daemon.selfId ∨ AliveIn x.members id) ∧
      ((∀ k, AliveIn x.membersLater k → AliveIn x.members k) → Shown nodes id) := by
  obtain ⟨hnodes, n, hn, hmaster⟩ := query_ok h
  have hw := run_wellFormed x.ord x.daemon x.before
  obtain ⟨n', hn', hleads, _⟩ := getMaster_spec (run_wellFormed x.ord x.daemon (x.before ++ x.between))
    x.masterCall.view x.masterCall.now
  have he : n' = n := by
    rw [Session.membersLater] at hn
    rw [hn] at hn'
    exact (Option.some.inj hn').symm
  rw [he] at hleads
  have hshown := shown_getNodes hw x.nodesCall.view x.nodesCall.now n.nodeId
  refine ⟨hnodes, n.nodeId, hmaster, hleads, ?_, ?_⟩
  · rw [hnodes]
    exact hshown
  · intro same
    rw [hnodes]
    apply hshown.mpr
    rcases hleads.member with h | h
    · exact .inl h
    · exact .inr (same _ h)

/-- A call that nothing disturbs. -/
def quietCall : Call := ⟨.newest, .early 0, true, true, maxControlPayload + 3⟩

/-- Node 2 knows nobody when it is asked for its nodes, and has heard of node 1 when it is
asked for its master. -/
def joiningSession : Session where
  daemon := Bus.node2
  ord := .newest
  before := []
  between := [⟨.early 0, .recv (Bus.peer 1) ⟨1, .heartbeat ⟨1, 0⟩⟩⟩]
  nodesCall := quietCall
  masterCall := quietCall
  refusal := fun _ => ""
  debug := fun _ => ""
  socketPath := "/var/run/hivebus/hivebus.sock"

theorem joining_query :
    joiningSession.query = .ok ([Bus.localNodeInfo Bus.node2 (.early 0) true], some 1) := by
  have hnodes : sendOp ⟨serve (Bus.controlReply .newest Bus.node2 (.early 0) joiningSession.members)
      joiningSession.refusal, true, maxControlPayload + 3⟩ .getNodes =
      .ok (.nodes [Bus.localNodeInfo Bus.node2 (.early 0) true]) :=
    sendOp_complete (by decide) (by decide) rfl (by decide) (Nat.le_refl _)
  have hmaster : sendOp ⟨serve (Bus.controlReply .newest Bus.node2 (.early 0)
      joiningSession.membersLater) joiningSession.refusal, true, maxControlPayload + 3⟩ .getMaster =
      .ok (.master (some (Bus.heartbeatRecord (.early 0) (Bus.peer 1) 1 ⟨1, 0⟩))) :=
    sendOp_complete (by decide) (by decide) rfl (by decide) (Nat.le_refl _)
  have hq : joiningSession.query = queryHivebus joiningSession.debug joiningSession.socketPath
      (some ⟨serve (Bus.controlReply .newest Bus.node2 (.early 0) joiningSession.members)
        joiningSession.refusal, true, maxControlPayload + 3⟩)
      (some ⟨serve (Bus.controlReply .newest Bus.node2 (.early 0) joiningSession.membersLater)
        joiningSession.refusal, true, maxControlPayload + 3⟩) := rfl
  rw [hq]
  simp only [queryHivebus, hnodes, hmaster]
  rfl

/-- A node that joins between the two requests is the master of a list it is not in. -/
theorem query_not_consistent :
    ¬ ∀ (x : Session) (nodes : List NodeInfo) (id : UInt16),
      x.query = .ok (nodes, some id) → Shown nodes id := by
  intro h
  obtain ⟨n, hn, hid, _⟩ := h joiningSession _ 1 joining_query
  rw [List.mem_singleton] at hn
  rw [hn] at hid
  exact absurd hid (by decide)

theorem query_view_joining :
    joiningSession.query = .ok ([Bus.localNodeInfo Bus.node2 (.early 0) true], some 1) ∧
      ∃ id, some 1 = some id ∧ Leads joiningSession.membersLater 2 id := by
  refine ⟨joining_query, ?_⟩
  obtain ⟨_, id, hid, hleads, _⟩ := query_view joiningSession _ _ joining_query
  exact ⟨id, hid, hleads⟩

end Hivebus.Proofs.ClusterView
