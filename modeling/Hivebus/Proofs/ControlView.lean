import Hivebus.Bus.Control
import Hivebus.Bus.News

namespace Hivebus.Proofs.ControlView
open Lib Proto Bus

/-- Each record sits under its own id, and none is the daemon's own. -/
def WellFormed (m : Members) (selfId : UInt16) : Prop :=
  ∀ k r, m.lookup k = some r → r.nodeId = k ∧ k ≠ selfId

/-- All three ways a record is made take its id from the news they are made for. -/
theorem onRecord_nodeId {now : SystemTime} {source : SocketAddr} {x : News} {r : Option NodeInfo}
    {r' : NodeInfo} (hr : ∀ e, r = some e → e.nodeId = x.subject)
    (h : x.onRecord now source r = some r') : r'.nodeId = x.subject := by
  cases x with
  | heartbeat nid pl =>
    cases h
    cases r with
    | none => rfl
    | some e => exact hr e rfl
  | announce nid pl => cases h; rfl
  | leave nid pl =>
    obtain ⟨e, he, rfl⟩ := Option.map_eq_some_iff.mp h
    exact hr e he
  | gossip entry =>
    cases h
    have hd : (r.getD (gossipRecord now source entry)).nodeId = entry.nodeId := by
      cases r with
      | none => rfl
      | some e => exact hr e rfl
    unfold absorb
    split <;> exact hd

theorem step_wellFormed {ord : Table.Order UInt16 NodeInfo} {d : Daemon} {s : State} (e : Event)
    (hs : WellFormed s.members d.selfId) : WellFormed (step ord d s e).members d.selfId := by
  refine step_records (P := fun k r => r.nodeId = k ∧ k ≠ d.selfId) ?_ ?_ s e hs
  · intro now source x r r' hx hr h
    exact ⟨onRecord_nodeId (fun e he => (hr e he).1) h, hx⟩
  · intro k r st b h
    exact h

theorem run_wellFormed (ord : Table.Order UInt16 NodeInfo) (d : Daemon) (es : List Event) :
    WellFormed (run ord d es).members d.selfId := by
  refine Run.exec_invariant (I := fun s : State => WellFormed s.members d.selfId)
    (fun s e hs => step_wellFormed e hs) ?_ es
  intro k r h
  cases h

def AliveIn (m : Members) (k : UInt16) : Prop := ∃ r, m.lookup k = some r ∧ r.state = .alive

/-- `id` is the least of the daemon's own id and the ids recorded Alive. -/
structure Leads (m : Members) (selfId id : UInt16) : Prop where
  member : id = selfId ∨ AliveIn m id
  le_self : id ≤ selfId
  least : ∀ k, AliveIn m k → id ≤ k

theorem Leads.unique {m : Members} {selfId a b : UInt16} (ha : Leads m selfId a)
    (hb : Leads m selfId b) : a = b := by
  have hab : a ≤ b := by
    rcases hb.member with rfl | h
    · exact ha.le_self
    · exact ha.least b h
  have hba : b ≤ a := by
    rcases ha.member with rfl | h
    · exact hb.le_self
    · exact hb.least a h
  exact UInt16.le_antisymm hab hba

theorem sorted_ids (ids : List UInt16) : (ids.insertionSort (· ≤ ·)).Pairwise (· ≤ ·) := by
  have : IsTrans UInt16 (· ≤ ·) := ⟨fun _ _ _ => UInt16.le_trans⟩
  have : Std.Total (α := UInt16) (· ≤ ·) := ⟨UInt16.le_total⟩
  exact List.pairwise_insertionSort _ _

/-- The head of the sorted ids is one of them and below all others. -/
theorem sorted_head (ids : List UInt16) (hne : ids ≠ []) :
    ∃ id, (ids.insertionSort (· ≤ ·)).head? = some id ∧ id ∈ ids ∧ ∀ k ∈ ids, id ≤ k := by
  have hs := sorted_ids ids
  have hp := List.perm_insertionSort (· ≤ ·) ids
  cases hl : ids.insertionSort (· ≤ ·) with
  | nil =>
    rw [hl] at hp
    exact absurd hp.symm.eq_nil hne
  | cons id rest =>
    rw [hl] at hs hp
    refine ⟨id, rfl, hp.mem_iff.mp List.mem_cons_self, ?_⟩
    intro k hk
    rcases List.mem_cons.mp (hp.mem_iff.mpr hk) with rfl | hr
    · exact UInt16.le_refl _
    · exact List.rel_of_pairwise_cons hs hr

/-- Whatever the order the table is listed in, the bully election finds the leader. -/
theorem masterFrom_leads {m : Members} {selfId : UInt16} (hw : WellFormed m selfId)
    (ord : Table.Order UInt16 NodeInfo) :
    ∃ id, masterFrom ord m selfId = some id ∧ Leads m selfId id := by
  have hids : ∀ k, k ∈ ((ord.values m).filter (fun n => n.state == .alive)).map NodeInfo.nodeId ↔
      AliveIn m k := by
    intro k
    constructor
    · intro h
      obtain ⟨r, hr, rfl⟩ := List.mem_map.mp h
      obtain ⟨hv, hs⟩ := List.mem_filter.mp hr
      obtain ⟨j, hj⟩ := ord.mem_values.mp hv
      have := (hw j r hj).1
      subst this
      exact ⟨r, hj, by simpa using hs⟩
    · intro ha
      obtain ⟨r, hr, hs⟩ := ha
      have hv : r ∈ ord.values m := ord.mem_values.mpr ⟨k, hr⟩
      exact List.mem_map.mpr ⟨r, List.mem_filter.mpr ⟨hv, by simpa using hs⟩, (hw k r hr).1⟩
  obtain ⟨id, he, hm, hl⟩ := sorted_head
    (((ord.values m).filter (fun n => n.state == .alive)).map NodeInfo.nodeId ++ [selfId]) (by simp)
  refine ⟨id, he, ?_, hl selfId (by simp), ?_⟩
  · rcases List.mem_append.mp hm with h | h
    · exact .inr ((hids id).mp h)
    · exact .inl (List.mem_singleton.mp h)
  · intro k hk
    exact hl k (List.mem_append_left _ ((hids k).mpr hk))

theorem masterFrom_iff {m : Members} {selfId : UInt16} (hw : WellFormed m selfId)
    (ord : Table.Order UInt16 NodeInfo) (id : UInt16) :
    masterFrom ord m selfId = some id ↔ Leads m selfId id := by
  obtain ⟨j, hj, hl⟩ := masterFrom_leads hw ord
  constructor
  · intro h
    rw [hj] at h
    cases h
    exact hl
  · intro h
    rw [hj, hl.unique h]

/-- The lookup behind GetMaster cannot miss: the id comes from the field of a record
that sits under it. -/
theorem getMaster_spec {m : Members} {d : Daemon} (hw : WellFormed m d.selfId)
    (ord : Table.Order UInt16 NodeInfo) (now : SystemTime) :
    ∃ n, getMaster ord d now m = some n ∧ Leads m d.selfId n.nodeId ∧
      (n.nodeId = d.selfId → n = localNodeInfo d now true) ∧
      (n.nodeId ≠ d.selfId → m.lookup n.nodeId = some n) := by
  obtain ⟨id, he, hl⟩ := masterFrom_leads hw ord
  unfold getMaster
  rw [he, Option.bind_some]
  by_cases hs : id = d.selfId
  · rw [if_pos hs]
    rw [hs] at hl
    refine ⟨localNodeInfo d now true, rfl, hl, fun _ => rfl, ?_⟩
    intro h
    exact absurd rfl h
  · rw [if_neg hs]
    rcases hl.member with h | ⟨r, hr, _⟩
    · exact absurd h hs
    · obtain ⟨hid, hne⟩ := hw id r hr
      subst hid
      exact ⟨r, hr, hl, fun h => absurd h hne, fun _ => hr⟩

theorem values_ids {m : Members} {selfId : UInt16} (hw : WellFormed m selfId)
    (ord : Table.Order UInt16 NodeInfo) :
    (ord.values m).map NodeInfo.nodeId = (ord.list m).map Prod.fst := by
  rw [Table.Order.values, List.map_map]
  apply List.map_congr_left
  intro p hp
  exact (hw p.1 p.2 (ord.mem_list.mp hp)).1

theorem listed_ids_nodup {m : Members} {d : Daemon} (hw : WellFormed m d.selfId)
    (ord : Table.Order UInt16 NodeInfo) (own : NodeInfo) (ho : own.nodeId = d.selfId) :
    ((ord.values m ++ [own]).map NodeInfo.nodeId).Nodup := by
  rw [List.map_append, values_ids hw, List.map_singleton]
  refine List.nodup_append'.mpr ⟨ord.keys_nodup m, List.nodup_singleton _, ?_⟩
  intro k hk hs
  obtain ⟨⟨j, r⟩, hp, rfl⟩ := List.mem_map.mp hk
  have hj := (hw j r (ord.mem_list.mp hp)).2
  rw [List.mem_singleton, ho] at hs
  exact hj hs

theorem sorted_nodes (ns : List NodeInfo) :
    (ns.insertionSort (fun a b => a.nodeId ≤ b.nodeId)).Pairwise (fun a b => a.nodeId ≤ b.nodeId) := by
  have : IsTrans NodeInfo (fun a b => a.nodeId ≤ b.nodeId) := ⟨fun _ _ _ => UInt16.le_trans⟩
  have : Std.Total (fun a b : NodeInfo => a.nodeId ≤ b.nodeId) :=
    ⟨fun a b => UInt16.le_total a.nodeId b.nodeId⟩
  exact List.pairwise_insertionSort _ _

theorem getNodes_perm (ord : Table.Order UInt16 NodeInfo) (d : Daemon) (now : SystemTime)
    (m : Members) :
    (getNodes ord d now m).Perm
      (ord.values m ++ [localNodeInfo d now (masterFrom ord m d.selfId == some d.selfId)]) :=
  List.perm_insertionSort _ _

theorem getNodes_increasing {m : Members} {d : Daemon} (hw : WellFormed m d.selfId)
    (ord : Table.Order UInt16 NodeInfo) (now : SystemTime) :
    (getNodes ord d now m).Pairwise (fun a b => a.nodeId < b.nodeId) := by
  have hn : ((getNodes ord d now m).map NodeInfo.nodeId).Nodup :=
    ((getNodes_perm ord d now m).map NodeInfo.nodeId).nodup_iff.mpr (listed_ids_nodup hw ord _ rfl)
  have hd := List.pairwise_map.mp hn
  have hs := sorted_nodes
    (ord.values m ++ [localNodeInfo d now (masterFrom ord m d.selfId == some d.selfId)])
  refine (hs.and hd).imp ?_
  intro a b h
  exact UInt16.lt_of_le_of_ne h.1 h.2

/-- The daemon's own entry is the only one of the reply that carries its id. -/
theorem getNodes_self {m : Members} {d : Daemon} (hw : WellFormed m d.selfId)
    (ord : Table.Order UInt16 NodeInfo) (now : SystemTime) :
    (getNodes ord d now m).filter (fun n => n.nodeId = d.selfId) =
      [localNodeInfo d now (masterFrom ord m d.selfId == some d.selfId)] := by
  have hp := (getNodes_perm ord d now m).filter (fun n => n.nodeId = d.selfId)
  have hv : (ord.values m).filter (fun n => n.nodeId = d.selfId) = [] := by
    apply List.filter_eq_nil_iff.mpr
    intro r hr
    obtain ⟨k, hk⟩ := ord.mem_values.mp hr
    obtain ⟨hid, hne⟩ := hw k r hk
    simp [hid, hne]
  rw [List.filter_append, hv, List.nil_append] at hp
  have hl : [localNodeInfo d now (masterFrom ord m d.selfId == some d.selfId)].filter
      (fun n => n.nodeId = d.selfId) =
      [localNodeInfo d now (masterFrom ord m d.selfId == some d.selfId)] := by
    simp [localNodeInfo]
  rw [hl] at hp
  exact List.perm_singleton.mp hp

/-- What holds of the table after every run, and what the control plane makes of it:
the nodes reply is strictly increasing with the daemon in it once, the master reply
names the least live id, and daemons with the same live ids name the same master. -/
theorem reachable_control_view (ord : Table.Order UInt16 NodeInfo) (d : Daemon)
    (es : List Event) :
    (∀ k r, (run ord d es).members.lookup k = some r → r.nodeId = k ∧ k ≠ d.selfId) ∧
    ∀ (view : Table.Order UInt16 NodeInfo) (now : SystemTime),
      (∃ ns, controlReply view d now (run ord d es).members .getNodes = some (.nodes ns) ∧
        ns.Pairwise (fun a b => a.nodeId < b.nodeId) ∧
        (ns.filter (fun n => n.nodeId = d.selfId)).length = 1) ∧
      (∃ n, controlReply view d now (run ord d es).members .getMaster =
          some (.master (some n)) ∧
        (n.nodeId = d.selfId ∨ AliveIn (run ord d es).members n.nodeId) ∧
        n.nodeId ≤ d.selfId ∧ ∀ k, AliveIn (run ord d es).members k → n.nodeId ≤ k) ∧
      ∀ (ord' view' : Table.Order UInt16 NodeInfo) (d' : Daemon) (es' : List Event)
        (now' : SystemTime) (n n' : NodeInfo),
        (∀ k, (k = d.selfId ∨ AliveIn (run ord d es).members k) ↔
          (k = d'.selfId ∨ AliveIn (run ord' d' es').members k)) →
        controlReply view d now (run ord d es).members .getMaster = some (.master (some n)) →
        controlReply view' d' now' (run ord' d' es').members .getMaster = some (.master (some n')) →
        n.nodeId = n'.nodeId := by
  have hw := run_wellFormed ord d es
  refine ⟨hw, ?_⟩
  intro view now
  obtain ⟨n, hn, hl, _⟩ := getMaster_spec hw view now
  refine ⟨⟨getNodes view d now (run ord d es).members, rfl, getNodes_increasing hw view now, ?_⟩,
    ⟨n, by simp [controlReply, hn], hl.member, hl.le_self, hl.least⟩, ?_⟩
  · rw [getNodes_self hw view now, List.length_singleton]
  · intro ord' view' d' es' now' a a' hsame ha ha'
    have hw' := run_wellFormed ord' d' es'
    obtain ⟨b', hb', hl', _⟩ := getMaster_spec hw' view' now'
    simp only [controlReply, Option.some.injEq, ControlReply.master.injEq] at ha ha'
    rw [hn] at ha
    rw [hb'] at ha'
    cases ha
    cases ha'
    apply hl.unique
    refine ⟨(hsame _).mpr hl'.member, ?_, ?_⟩
    · rcases (hsame d.selfId).mp (.inl rfl) with h | h
      · exact h ▸ hl'.le_self
      · exact hl'.least _ h
    · intro k hk
      rcases (hsame k).mp (.inr hk) with h | h
      · exact h ▸ hl'.le_self
      · exact hl'.least k h

end Hivebus.Proofs.ControlView
