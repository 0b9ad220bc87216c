import Hivebus.Proofs.Convergence
import Hivebus.Proofs.ControlView

namespace Hivebus.Proofs.Master
open Lib Proto Bus ControlView Convergence

/-- The stored flags mark the leader and nobody else. -/
def Flagged (m : Members) (selfId : UInt16) : Prop :=
  ∀ k r, m.lookup k = some r → (r.isMaster = true ↔ Leads m selfId k)

/-- The nodes reply shows one master, and the master reply is that node, flagged. -/
def SingleVisibleMaster (ord : Table.Order UInt16 NodeInfo) (d : Daemon) (now : SystemTime)
    (m : Members) : Prop :=
  ∃ ns x n, controlReply ord d now m .getNodes = some (.nodes ns) ∧
    ns.filter NodeInfo.isMaster = [x] ∧
    controlReply ord d now m .getMaster = some (.master (some n)) ∧
    n.nodeId = x.nodeId ∧ n.isMaster = true

theorem leads_exists {m : Members} {selfId : UInt16} (hw : WellFormed m selfId) :
    ∃ id, Leads m selfId id := by
  obtain ⟨id, _, hl⟩ := masterFrom_leads hw .newest
  exact ⟨id, hl⟩

theorem values_nodup {m : Members} {selfId : UInt16} (hw : WellFormed m selfId)
    (ord : Table.Order UInt16 NodeInfo) : (ord.values m).Nodup := by
  have h : ((ord.values m).map NodeInfo.nodeId).Nodup := by
    rw [values_ids hw]
    exact ord.keys_nodup m
  exact h.of_map

/-- With right flags the flagged records are the leader's record, if it has one. -/
theorem flagged_values {m : Members} {selfId id : UInt16} (hw : WellFormed m selfId)
    (hf : Flagged m selfId) (hl : Leads m selfId id) (ord : Table.Order UInt16 NodeInfo) :
    (ord.values m).filter NodeInfo.isMaster = (m.lookup id).toList := by
  have hin : ∀ v ∈ (ord.values m).filter NodeInfo.isMaster, m.lookup id = some v := by
    intro v hv
    obtain ⟨hv, hm⟩ := List.mem_filter.mp hv
    obtain ⟨k, hk⟩ := ord.mem_values.mp hv
    have := ((hf k v hk).mp hm).unique hl
    rwa [this] at hk
  cases hr : m.lookup id with
  | none =>
    apply List.eq_nil_iff_forall_not_mem.mpr
    intro v hv
    rw [hin v hv] at hr
    cases hr
  | some r =>
    have hmem : r ∈ (ord.values m).filter NodeInfo.isMaster :=
      List.mem_filter.mpr ⟨ord.mem_values.mpr ⟨id, hr⟩, (hf id r hr).mpr hl⟩
    have hall : ∀ v ∈ (ord.values m).filter NodeInfo.isMaster, v = r := by
      intro v hv
      have := hin v hv
      rw [hr] at this
      exact (Option.some.inj this).symm
    have hnd := (values_nodup hw ord).filter NodeInfo.isMaster
    obtain ⟨n, hn⟩ : ∃ n, (ord.values m).filter NodeInfo.isMaster = List.replicate n r :=
      ⟨_, List.eq_replicate_of_mem hall⟩
    rw [hn] at hnd hmem ⊢
    have h1 : n ≤ 1 := List.nodup_replicate.mp hnd
    have h0 : n ≠ 0 := (List.mem_replicate.mp hmem).1
    have : n = 1 := by omega
    rw [this]
    rfl

/-- What the control plane shows is right exactly when the stored flags are. -/
theorem visible_iff {m : Members} {d : Daemon} (hw : WellFormed m d.selfId)
    (ord : Table.Order UInt16 NodeInfo) (now : SystemTime) :
    SingleVisibleMaster ord d now m ↔ Flagged m d.selfId := by
  obtain ⟨n, hn, hl, hown, hpeer⟩ := getMaster_spec hw ord now
  have hp := (getNodes_perm ord d now m).filter NodeInfo.isMaster
  constructor
  · intro visible
    obtain ⟨ns, x, n', hns, hx, hn', hid, hflag⟩ := visible
    simp only [controlReply, Option.some.injEq, ControlReply.nodes.injEq,
      ControlReply.master.injEq] at hns hn'
    rw [hn] at hn'
    cases hn'
    subst hns
    intro k r hr
    obtain ⟨hrid, hne⟩ := hw k r hr
    constructor
    · intro hm
      have hmem : r ∈ (getNodes ord d now m).filter NodeInfo.isMaster := by
        refine List.mem_filter.mpr ⟨(getNodes_perm ord d now m).mem_iff.mpr ?_, hm⟩
        exact List.mem_append_left _ (ord.mem_values.mpr ⟨k, hr⟩)
      rw [hx, List.mem_singleton] at hmem
      subst hmem
      rw [← hrid, ← hid]
      exact hl
    · intro hk
      have he : k = n.nodeId := hk.unique hl
      have hn := hpeer (he ▸ hne)
      rw [← he, hr] at hn
      cases hn
      exact hflag
  · intro hf
    have hv := flagged_values hw hf hl ord
    rw [List.filter_append, hv] at hp
    by_cases hs : n.nodeId = d.selfId
    · have hnone : m.lookup n.nodeId = none := by
        cases hr : m.lookup n.nodeId with
        | none => rfl
        | some r => exact absurd hs (hw n.nodeId r hr).2
      have hself : masterFrom ord m d.selfId = some d.selfId :=
        (masterFrom_iff hw ord d.selfId).mpr (hs ▸ hl)
      simp only [hnone, hself, localNodeInfo, Option.toList_none, beq_self_eq_true,
        List.filter_cons, ↓reduceIte, List.filter_nil, List.nil_append] at hp
      refine ⟨_, _, n, rfl, List.perm_singleton.mp hp, by simp [controlReply, hn], hs, ?_⟩
      rw [hown hs]
      rfl
    · have hr := hpeer hs
      have hself : (masterFrom ord m d.selfId == some d.selfId) = false := by
        rw [(masterFrom_iff hw ord n.nodeId).mpr hl]
        simpa using hs
      simp only [hr, hself, localNodeInfo, Option.toList_some, List.filter_cons,
        Bool.false_eq_true, ↓reduceIte, List.filter_nil, List.append_nil] at hp
      exact ⟨_, _, n, rfl, List.perm_singleton.mp hp, by simp [controlReply, hn], rfl,
        (hf n.nodeId n hr).mpr hl⟩

def flag (r : Option NodeInfo) : Bool := (r.map NodeInfo.isMaster).getD false

/-- Nothing is forgotten, and no flag is touched; a record that is new has none. -/
def FlagsKept (m m' : Members) : Prop :=
  ∀ k, flag (m'.lookup k) = flag (m.lookup k) ∧ ((m.lookup k).isSome → (m'.lookup k).isSome)

theorem flag_true {r : Option NodeInfo} (h : flag r = true) : ∃ n, r = some n ∧ n.isMaster = true := by
  cases r with
  | none => cases h
  | some n => exact ⟨n, rfl, h⟩

/-- As long as nobody touches the flags they stay right exactly as long as the leader
stays the leader. -/
theorem flagged_iff_leads {m m' : Members} {selfId id : UInt16} (hw : WellFormed m selfId)
    (hw' : WellFormed m' selfId) (hf : Flagged m selfId) (hk : FlagsKept m m')
    (hl : Leads m selfId id) : Flagged m' selfId ↔ Leads m' selfId id := by
  constructor
  · intro hf'
    rcases hl.member with hs | ⟨r, hr, _⟩
    · obtain ⟨id', hl'⟩ := leads_exists hw'
      rcases hl'.member with hs' | ⟨r', hr', _⟩
      · have he : id = id' := hs.trans hs'.symm
        subst he
        exact hl'
      · have hflag : flag (m.lookup id') = true := by
          rw [← (hk id').1, hr']
          exact (hf' id' r' hr').mpr hl'
        obtain ⟨r, hr, hm⟩ := flag_true hflag
        have he := ((hf id' r hr).mp hm).unique hl
        exact absurd (he.trans hs) (hw id' r hr).2
    · have hflag : flag (m'.lookup id) = true := by
        rw [(hk id).1, hr]
        exact (hf id r hr).mpr hl
      obtain ⟨r', hr', hm⟩ := flag_true hflag
      exact (hf' id r' hr').mp hm
  · intro hl' k r' hr'
    have hkk : r'.isMaster = flag (m.lookup k) := by
      rw [← (hk k).1, hr']
      rfl
    rw [hkk]
    constructor
    · intro hflag
      obtain ⟨r, hr, hm⟩ := flag_true hflag
      rw [((hf k r hr).mp hm).unique hl]
      exact hl'
    · intro hlk
      have he := hlk.unique hl'
      subst he
      rcases hl.member with hs | ⟨r, hr, _⟩
      · exact absurd hs (hw' k r' hr').2
      · rw [hr]
        exact (hf k r hr).mpr hl

/-- The state a node is given by gossip once a payload has been merged. -/
def AliveAfter (m : Members) (pl : GossipPayload) (k : UInt16) : Prop :=
  ∃ i, Stamped.join (view (m.lookup k)) (verdict pl k) = some (i, .alive)

/-- A frame leaves the lowest live id where it is, and is no announcement of the
node that holds it. -/
def KeepsMaster (d : Daemon) (s : State) (e : Event) : Prop :=
  match e.action with
  | .recv _ f =>
    f.nodeId ≠ d.selfId → ∀ id, Leads s.members d.selfId id →
      match f.message with
      | .heartbeat _ => id ≤ f.nodeId
      | .announce _ => id < f.nodeId
      | .leave _ => f.nodeId ≠ id
      | .gossip pl => (id = d.selfId ∨ AliveAfter s.members pl id) ∧
          ∀ k, k ≠ d.selfId → AliveAfter s.members pl k → id ≤ k
      | .ignored => True
  | .sample | .scan => True

theorem alive_view {m : Members} {k : UInt16} :
    AliveIn m k ↔ ∃ i, view (m.lookup k) = some (i, .alive) := by
  constructor
  · intro ha
    obtain ⟨r, hr, hs⟩ := ha
    exact ⟨r.incarnation, by simp [view, hr, hs]⟩
  · intro hv
    obtain ⟨i, h⟩ := hv
    obtain ⟨r, hr, he⟩ := Option.map_eq_some_iff.mp h
    simp only [Prod.mk.injEq] at he
    exact ⟨r, hr, he.2⟩

/-- News that is no announcement keeps the flag of its subject. -/
theorem apply_flagsKept (now : SystemTime) (source : SocketAddr) (m : Members) (x : News)
    (hx : ∀ nid pl, x ≠ .announce nid pl) : FlagsKept m (x.apply now source m) := by
  intro k
  rw [lookup_apply]
  split
  · cases x with
    | heartbeat nid pl => cases m.lookup k <;> exact ⟨rfl, fun _ => rfl⟩
    | announce nid pl => exact absurd rfl (hx nid pl)
    | leave nid pl => cases m.lookup k <;> exact ⟨rfl, fun h => h⟩
    | gossip entry =>
      have ha : ∀ r : NodeInfo, (absorb entry r).isMaster = r.isMaster := by
        intro r
        unfold absorb
        split <;> rfl
      cases hr : m.lookup k with
      | none =>
        exact ⟨(ha (gossipRecord now source entry)).trans rfl, fun _ => rfl⟩
      | some r => exact ⟨ha r, fun _ => rfl⟩
  · exact ⟨rfl, fun h => h⟩

theorem foldl_flagsKept (now : SystemTime) (source : SocketAddr) (xs : List News) (m : Members)
    (hx : ∀ x ∈ xs, ∀ nid pl, x ≠ .announce nid pl) :
    FlagsKept m (xs.foldl (News.apply now source) m) := by
  induction xs generalizing m with
  | nil => exact fun k => ⟨rfl, fun h => h⟩
  | cons x xs ih =>
    intro k
    have h1 := apply_flagsKept now source m x (hx x List.mem_cons_self) k
    have h2 := ih (x.apply now source m) (fun y hy => hx y (List.mem_cons_of_mem _ hy)) k
    exact ⟨h2.1.trans h1.1, fun h => h2.2 (h1.2 h)⟩

theorem handleFrame_flagsKept (selfId : UInt16) (now : SystemTime) (source : SocketAddr) (f : Frame)
    (m : Members) (hf : ∀ pl, f.message ≠ .announce pl) :
    FlagsKept m (handleFrame selfId now source f m) := by
  rw [handleFrame_eq_foldl]
  apply foldl_flagsKept
  intro x hx nid pl he
  subst he
  unfold newsOf at hx
  split at hx
  · cases hx
  · split at hx
    · simp at hx
    · next apl ha => exact absurd ha (hf apl)
    · simp at hx
    · simp at hx
    · cases hx

theorem leads_heartbeat {m m' : Members} {selfId id nid : UInt16} (hl : Leads m selfId id)
    (ha : ∀ k, AliveIn m' k ↔ k = nid ∨ AliveIn m k) : Leads m' selfId id ↔ id ≤ nid := by
  constructor
  · intro hl'
    exact hl'.least nid ((ha nid).mpr (.inl rfl))
  · intro hle
    refine ⟨hl.member.imp_right (fun h => (ha id).mpr (.inr h)), hl.le_self, ?_⟩
    intro k hk
    rcases (ha k).mp hk with rfl | hk
    · exact hle
    · exact hl.least k hk

theorem leads_leave {m m' : Members} {selfId id nid : UInt16} (hl : Leads m selfId id)
    (hne : nid ≠ selfId) (ha : ∀ k, AliveIn m' k ↔ k ≠ nid ∧ AliveIn m k) :
    Leads m' selfId id ↔ nid ≠ id := by
  constructor
  · intro hl'
    rcases hl'.member with rfl | h
    · exact hne
    · exact Ne.symm ((ha id).mp h).1
  · intro hn
    refine ⟨hl.member.imp_right (fun h => (ha id).mpr ⟨Ne.symm hn, h⟩), hl.le_self, ?_⟩
    intro k hk
    exact hl.least k ((ha k).mp hk).2

theorem leads_gossip {m m' : Members} {selfId id : UInt16} {pl : GossipPayload}
    (hw' : WellFormed m' selfId) (hl : Leads m selfId id)
    (ha : ∀ k, k ≠ selfId → (AliveIn m' k ↔ AliveAfter m pl k)) :
    Leads m' selfId id ↔ (id = selfId ∨ AliveAfter m pl id) ∧
      ∀ k, k ≠ selfId → AliveAfter m pl k → id ≤ k := by
  have hns : ∀ k, AliveIn m' k → k ≠ selfId := by
    intro k ha
    obtain ⟨r, hr, _⟩ := ha
    exact (hw' k r hr).2
  constructor
  · intro hl'
    refine ⟨hl'.member.imp_right (fun h => (ha id (hns id h)).mp h), ?_⟩
    intro k hk h
    exact hl'.least k ((ha k hk).mpr h)
  · intro hc
    obtain ⟨hm, hle⟩ := hc
    refine ⟨?_, hl.le_self, ?_⟩
    · by_cases hs : id = selfId
      · exact .inl hs
      · rcases hm with h | h
        · exact .inl h
        · exact .inr ((ha id hs).mpr h)
    · intro k hk
      exact hle k (hns k hk) ((ha k (hns k hk)).mp hk)

/-- Who leads depends on who is alive only. -/
theorem leads_congr {m m' : Members} (ha : ∀ k, AliveIn m k ↔ AliveIn m' k) (selfId id : UInt16) :
    Leads m selfId id ↔ Leads m' selfId id := by
  constructor
  · intro h
    exact ⟨h.member.imp_right (ha id).mp, h.le_self, fun k hk => h.least k ((ha k).mpr hk)⟩
  · intro h
    exact ⟨h.member.imp_right (ha id).mpr, h.le_self, fun k hk => h.least k ((ha k).mp hk)⟩

theorem agedMembers_wellFormed {m : Members} {d : Daemon} (hw : WellFormed m d.selfId)
    (now : SystemTime) : WellFormed (agedMembers d now m) d.selfId := by
  intro k r hr
  rw [agedMembers, Table.lookup_mapValues, Table.lookup_retain] at hr
  obtain ⟨q, hq, rfl⟩ := Option.map_eq_some_iff.mp hr
  obtain ⟨hq, _⟩ := Option.filter_eq_some_iff.mp hq
  obtain ⟨st, hst⟩ := downgrade_eq d now q
  rw [hst]
  exact hw k q hq

/-- A scan leaves right flags behind, whatever flags it finds. -/
theorem scan_flagged {m : Members} {d : Daemon} (hw : WellFormed m d.selfId)
    (ord : Table.Order UInt16 NodeInfo) (now : SystemTime) :
    Flagged (scan ord d now m) d.selfId := by
  have haged := agedMembers_wellFormed hw now
  have hlook : ∀ k, (scan ord d now m).lookup k = ((agedMembers d now m).lookup k).map
      (fun node => { node with
        isMaster := some node.nodeId == masterFrom ord (agedMembers d now m) d.selfId }) :=
    fun k => Table.lookup_mapValues _ _ k
  have halive : ∀ k, AliveIn (scan ord d now m) k ↔ AliveIn (agedMembers d now m) k := by
    intro k
    constructor
    · intro ha
      obtain ⟨r, hr, hs⟩ := ha
      rw [hlook] at hr
      obtain ⟨q, hq, rfl⟩ := Option.map_eq_some_iff.mp hr
      exact ⟨q, hq, hs⟩
    · intro ha
      obtain ⟨r, hr, hs⟩ := ha
      have hr' := hlook k
      rw [hr] at hr'
      exact ⟨_, hr', hs⟩
  intro k r hr
  rw [hlook] at hr
  obtain ⟨q, hq, rfl⟩ := Option.map_eq_some_iff.mp hr
  rw [leads_congr halive, ← masterFrom_iff haged ord, (haged k q hq).1, beq_iff_eq]
  exact eq_comm

/-- An announcement clears the flag of its sender, so right flags survive it only when
somebody lower leads. -/
theorem announce_flagged {m : Members} {selfId id nid : UInt16} {now : SystemTime}
    {pl : AnnouncePayload} (hf : Flagged m selfId) (hl : Leads m selfId id) :
    Flagged (onAnnounce now nid pl m) selfId ↔ id < nid := by
  have hlook : ∀ k, (onAnnounce now nid pl m).lookup k =
      if k = nid then some (announceRecord now nid pl) else m.lookup k :=
    fun k => Table.lookup_insert_if m nid k _
  have hsame : ∀ k, k ≠ nid → (AliveIn (onAnnounce now nid pl m) k ↔ AliveIn m k) := by
    intro k hk
    simp only [AliveIn, hlook, if_neg hk]
  have hnew : AliveIn (onAnnounce now nid pl m) nid := ⟨_, by rw [hlook, if_pos rfl], rfl⟩
  constructor
  · intro hf'
    by_contra hlt
    have hle : nid ≤ id := UInt16.not_lt.mp hlt
    have hlead : Leads (onAnnounce now nid pl m) selfId nid := by
      refine ⟨.inr hnew, UInt16.le_trans hle hl.le_self, ?_⟩
      intro k hk
      by_cases hkn : k = nid
      · rw [hkn]
        exact UInt16.le_refl _
      · exact UInt16.le_trans hle (hl.least k ((hsame k hkn).mp hk))
    have := (hf' nid (announceRecord now nid pl) (by rw [hlook, if_pos rfl])).mpr hlead
    cases this
  · intro hlt
    have hne : id ≠ nid := fun h => UInt16.lt_irrefl _ (h ▸ hlt)
    have hlead : Leads (onAnnounce now nid pl m) selfId id := by
      refine ⟨hl.member.imp_right (hsame id hne).mpr, hl.le_self, ?_⟩
      intro k hk
      by_cases hkn : k = nid
      · rw [hkn]
        exact UInt16.le_of_lt hlt
      · exact hl.least k ((hsame k hkn).mp hk)
    intro k r hr
    by_cases hkn : k = nid
    · subst hkn
      rw [hlook, if_pos rfl] at hr
      cases hr
      constructor
      · intro h
        cases h
      · intro h
        exact absurd (hlead.unique h) hne
    · rw [hlook, if_neg hkn] at hr
      rw [hf k r hr]
      constructor
      · intro h
        rw [h.unique hl]
        exact hlead
      · intro h
        rw [h.unique hlead]
        exact hl

theorem frame_flagged {m : Members} {selfId id : UInt16} (now : SystemTime) (source : SocketAddr)
    {f : Frame} (hw : WellFormed m selfId) (hw' : WellFormed (handleFrame selfId now source f m) selfId)
    (hf : Flagged m selfId) (hl : Leads m selfId id) (hne : f.nodeId ≠ selfId) :
    Flagged (handleFrame selfId now source f m) selfId ↔
      match f.message with
      | .heartbeat _ => id ≤ f.nodeId
      | .announce _ => id < f.nodeId
      | .leave _ => f.nodeId ≠ id
      | .gossip pl => (id = selfId ∨ AliveAfter m pl id) ∧
          ∀ k, k ≠ selfId → AliveAfter m pl k → id ≤ k
      | .ignored => True := by
  obtain ⟨nid, message⟩ := f
  cases message with
  | announce pl =>
    have he : handleFrame selfId now source ⟨nid, .announce pl⟩ m = onAnnounce now nid pl m :=
      if_neg hne
    rw [he]
    exact announce_flagged hf hl
  | heartbeat pl =>
    rw [flagged_iff_leads hw hw' hf (handleFrame_flagsKept _ _ _ _ _ (by simp)) hl]
    apply leads_heartbeat hl
    intro k
    have he : handleFrame selfId now source ⟨nid, .heartbeat pl⟩ m = onHeartbeat now source nid pl m :=
      if_neg hne
    simp only [he, AliveIn, onHeartbeat, Table.lookup_upsert]
    by_cases hk : k = nid
    · simp [hk, refresh]
    · simp [hk]
  | leave pl =>
    rw [flagged_iff_leads hw hw' hf (handleFrame_flagsKept _ _ _ _ _ (by simp)) hl]
    apply leads_leave hl hne
    intro k
    have he : handleFrame selfId now source ⟨nid, .leave pl⟩ m = onLeave nid pl m := if_neg hne
    simp only [he, AliveIn, onLeave, Table.lookup_modify]
    by_cases hk : k = nid
    · simp [hk]
    · simp [hk]
  | gossip pl =>
    rw [flagged_iff_leads hw hw' hf (handleFrame_flagsKept _ _ _ _ _ (by simp)) hl]
    apply leads_gossip hw' hl
    intro k hk
    have he : handleFrame selfId now source ⟨nid, .gossip pl⟩ m = onGossip selfId now source pl m :=
      if_neg hne
    rw [he, alive_view, view_gossip selfId now source pl m k hk]
    rfl
  | ignored =>
    have he : handleFrame selfId now source ⟨nid, .ignored⟩ m = m := if_neg hne
    rw [he]
    exact ⟨fun _ => trivial, fun _ => hf⟩

/-- Exactly the events that meet the condition keep right flags right. -/
theorem step_flagged (ord : Table.Order UInt16 NodeInfo) {d : Daemon} {s : State} (e : Event)
    (hw : WellFormed s.members d.selfId) (hf : Flagged s.members d.selfId) :
    Flagged (step ord d s e).members d.selfId ↔ KeepsMaster d s e := by
  have hw' : WellFormed (step ord d s e).members d.selfId := step_wellFormed e hw
  obtain ⟨now, action⟩ := e
  cases action with
  | recv source f =>
    obtain ⟨id, hl⟩ := leads_exists hw
    by_cases hne : f.nodeId = d.selfId
    · have he : step ord d s ⟨now, .recv source f⟩ = s := by
        simp [step, handleFrame, hne]
      rw [he]
      exact ⟨fun _ h => absurd hne h, fun _ => hf⟩
    · have hframe := frame_flagged now source hw hw' hf hl hne
      constructor
      · intro h _ id' hl'
        rw [hl'.unique hl]
        exact hframe.mp h
      · intro h
        exact hframe.mpr (h hne id hl)
  | sample =>
    refine ⟨fun _ => trivial, fun _ => ?_⟩
    have hm : (step ord d s ⟨now, .sample⟩).members = s.members := turn_sample ord d s now
    rw [hm]
    exact hf
  | scan =>
    refine ⟨fun _ => trivial, fun _ => ?_⟩
    rcases turn_scan ord d s now with hm | ⟨t, _, hm⟩
    · change Flagged (turn ord d s ⟨now, .scan⟩).members d.selfId
      rw [hm]
      exact hf
    · change Flagged (turn ord d s ⟨now, .scan⟩).members d.selfId
      rw [hm]
      exact scan_flagged hw ord t

/-- A run shows one master in every state it passes through if and only if none of its
frames moves the lowest live id or is an announcement of the node that holds it. -/
theorem single_visible_master_iff (ord : Table.Order UInt16 NodeInfo) (d : Daemon)
    (es : List Event) :
    Run.Throughout (step ord d) (fun s => ∀ view now, SingleVisibleMaster view d now s.members)
      start es ↔ Run.Along (step ord d) (KeepsMaster d) start es := by
  have hstart : WellFormed start.members d.selfId ∧ Flagged start.members d.selfId :=
    ⟨fun k r h => (nomatch h), fun k r h => (nomatch h)⟩
  rw [← Run.throughout_iff_along (I := fun s : State =>
    WellFormed s.members d.selfId ∧ Flagged s.members d.selfId) ?_ hstart es]
  · constructor
    · intro h pre post he
      have hw := run_wellFormed ord d pre
      exact ⟨hw, (visible_iff hw .newest (.early 0)).mp (h pre post he _ _)⟩
    · intro h pre post he view now
      obtain ⟨hw, hf⟩ := h pre post he
      exact (visible_iff hw view now).mpr hf
  · intro s e hs
    obtain ⟨hw, hf⟩ := hs
    rw [← step_flagged ord e hw hf]
    exact ⟨fun h => h.2, fun h => ⟨step_wellFormed e hw, h⟩⟩

/-- A heartbeat of node 1 reaches node 2 before the next tick. -/
def lowerNodeHeard : List Event :=
  [⟨.early 0, .recv (peer 1) ⟨1, .heartbeat ⟨5, 0⟩⟩⟩]

theorem lower_node_hides_master :
    ¬ Run.Throughout (step .newest node2)
      (fun s => ∀ view now, SingleVisibleMaster view node2 now s.members) start lowerNodeHeard := by
  intro h
  have hv := h lowerNodeHeard [] rfl .newest (.early 0)
  have hf := (visible_iff (run_wellFormed .newest node2 lowerNodeHeard) .newest _).mp hv
  have hlead : Leads (run .newest node2 lowerNodeHeard).members 2 1 := by
    refine ⟨.inr ⟨_, rfl, rfl⟩, by decide, ?_⟩
    intro k ha
    obtain ⟨r, hr, _⟩ := ha
    have hk : k = 1 := by
      by_contra hne
      have : (run .newest node2 lowerNodeHeard).members.lookup k = none := by
        have hl := Table.lookup_upsert (∅ : Members) 1 k
          (heartbeatRecord (.early 0) (peer 1) 1 ⟨5, 0⟩) (refresh (.early 0) ⟨5, 0⟩)
        rw [if_neg hne] at hl
        exact hl
      rw [this] at hr
      cases hr
    rw [hk]
    decide
  have := (hf 1 _ rfl).mpr hlead
  cases this

end Hivebus.Proofs.Master
