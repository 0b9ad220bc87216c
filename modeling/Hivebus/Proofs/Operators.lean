import Hivebus.Proofs.ClusterView
import Hivebus.Proofs.Election

namespace Hivebus.Proofs.Operators
open Lib Proto Bus ControlView ClusterView Provenance Suspicion Heartbeats Failover Election
open Hivectl (UnixStream queryHivebus)

/-- A connection to the control socket of a running daemon, wherever it breaks. -/
def Reaches (p : Process) (s : Option UnixStream) : Prop :=
  ∀ x, s = some x → ∃ view now refusal,
    x.daemon = serve (controlReply view p.daemon now p.state.members) refusal

/-- What hivectl may get from a daemon in the state it is in. -/
def Asked (p : Process) (nodes : List NodeInfo) (master : Option UInt16) : Prop :=
  ∃ debug socketPath s1 s2, Reaches p s1 ∧ Reaches p s2 ∧
    queryHivebus debug socketPath s1 s2 = .ok (nodes, master)

theorem asked_ok {p : Process} {nodes : List NodeInfo} {master : Option UInt16}
    (hw : WellFormed p.state.members p.daemon.selfId) (h : Asked p nodes master) :
    (∃ view now, nodes = getNodes view p.daemon now p.state.members) ∧
      ∃ id, master = some id ∧ Leads p.state.members p.daemon.selfId id := by
  obtain ⟨debug, socketPath, s1, s2, h1, h2, h⟩ := h
  unfold queryHivebus at h
  split at h
  · cases h
  · next x1 =>
    obtain ⟨view, now, refusal, hx⟩ := h1 x1 rfl
    obtain ⟨daemon, writable, arrived⟩ := x1
    cases hx
    split at h
    · cases h
    · next ns hns =>
      cases sendOp_sound (by decide) (by decide) rfl hns
      split at h
      · cases h
      · next x2 =>
        obtain ⟨view', now', refusal', hx⟩ := h2 x2 rfl
        obtain ⟨daemon', writable', arrived'⟩ := x2
        cases hx
        obtain ⟨n, hn, hl, _⟩ := getMaster_spec hw view' now'
        have hm : controlReply view' p.daemon now' p.state.members .getMaster =
            some (.master (some n)) := congrArg (fun m => some (ControlReply.master m)) hn
        split at h
        · cases h
        · next n' hsend =>
          cases sendOp_sound (by decide) (by decide) hm hsend
          cases h
          exact ⟨⟨view, now, rfl⟩, _, rfl, hl⟩
        · next other hne hsend =>
          exact absurd (sendOp_sound (by decide) (by decide) hm hsend) (hne n)
    · cases h
    · cases h

/-- The ids that hivectl shows as Alive, in the order of its rows. -/
def shownAlive (nodes : List NodeInfo) : List UInt16 :=
  (nodes.filter (fun n => n.state == .alive)).map NodeInfo.nodeId

theorem mem_shownAlive {p : Process} (hw : WellFormed p.state.members p.daemon.selfId)
    (view : Table.Order UInt16 NodeInfo) (now : SystemTime) (k : UInt16) :
    k ∈ shownAlive (getNodes view p.daemon now p.state.members) ↔ Trusted p k := by
  have hperm := getNodes_perm view p.daemon now p.state.members
  unfold shownAlive
  rw [List.mem_map]
  constructor
  · intro hk
    obtain ⟨n, hn, rfl⟩ := hk
    obtain ⟨hin, hstate⟩ := List.mem_filter.mp hn
    rcases List.mem_append.mp (hperm.mem_iff.mp hin) with hv | hown
    · obtain ⟨j, hj⟩ := view.mem_values.mp hv
      have hid := (hw j n hj).1
      exact .inr ⟨n, by rw [hid]; exact hj, eq_of_beq hstate⟩
    · rw [List.mem_singleton.mp hown]
      exact .inl rfl
  · intro hk
    rcases hk with rfl | ⟨r, hr, halive⟩
    · refine ⟨_, List.mem_filter.mpr ⟨hperm.mem_iff.mpr (List.mem_append_right _
        List.mem_cons_self), rfl⟩, rfl⟩
    · refine ⟨r, List.mem_filter.mpr ⟨hperm.mem_iff.mpr (List.mem_append_left _
        (view.mem_values.mpr ⟨k, hr⟩)), by rw [halive]; rfl⟩, (hw k r hr).1⟩

theorem shownAlive_sorted {p : Process} (hw : WellFormed p.state.members p.daemon.selfId)
    (view : Table.Order UInt16 NodeInfo) (now : SystemTime) :
    (shownAlive (getNodes view p.daemon now p.state.members)).Pairwise (· < ·) :=
  List.pairwise_map.mpr ((getNodes_increasing hw view now).filter _)

theorem head_of_least {ids : List UInt16} (hs : ids.Pairwise (· < ·)) {id : UInt16} (hid : id ∈ ids)
    (hle : ∀ k ∈ ids, id ≤ k) : ids.head? = some id := by
  cases ids with
  | nil => cases hid
  | cons a ids =>
    rcases List.mem_cons.mp hid with rfl | hin
    · rfl
    · have hlt : a < id := (List.pairwise_cons.mp hs).1 id hin
      exact absurd (hle a List.mem_cons_self) (UInt16.not_le.mpr hlt)

variable {ι : Type} [DecidableEq ι]

/-- There is one list of ids and one master, its first, that every operator is shown at every
machine once all nodes are accounted for: those shown as Alive are the daemons that run, and
no one else. -/
theorem operators_agree (hosts : ι → Host) (es : List (Happening ι)) {period delay : Duration}
    (h : Steady hosts es period delay) (hp : Patient hosts (period + delay))
    (hkeep : period + delay < cleanupThreshold)
    (hprompt : Run.Along (Network.step hosts) Prompt Network.start es)
    (hfate : Accounted hosts es period delay) (hsettled : Settled hosts es (period + delay)) :
    ∃ ids : List UInt16, ids.Pairwise (· < ·) ∧
      (∀ k, k ∈ ids ↔ Running (Network.run hosts es) k) ∧
      ∀ i p, (Network.run hosts es).procs i = some p → ∀ nodes master, Asked p nodes master →
        shownAlive nodes = ids ∧ master = ids.head? := by
  have hsourced := run_sourced hosts es
  by_cases hrun : ∃ i p, (Network.run hosts es).procs i = some p
  · obtain ⟨i, p, hi⟩ := hrun
    have htrusted : ∀ {i p}, (Network.run hosts es).procs i = some p → ∀ k,
        Trusted p k ↔ Running (Network.run hosts es) k :=
      fun hi => trusted_iff h hp hkeep hprompt hfate hsettled hi
    have hlist := shownAlive_sorted (hsourced.procs i p hi).wellFormed .newest (.early 0)
    have hmem := mem_shownAlive (hsourced.procs i p hi).wellFormed .newest (.early 0)
    refine ⟨_, hlist, fun k => (hmem k).trans (htrusted hi k), ?_⟩
    intro j q hj nodes master hasked
    have hw := (hsourced.procs j q hj).wellFormed
    obtain ⟨⟨view, now, rfl⟩, id, rfl, hleads⟩ := asked_ok hw hasked
    have same : ∀ k, k ∈ shownAlive (getNodes view q.daemon now q.state.members) ↔
        k ∈ shownAlive (getNodes .newest p.daemon (.early 0) p.state.members) := by
      intro k
      rw [mem_shownAlive hw, htrusted hj, hmem, htrusted hi]
    have heq := (shownAlive_sorted hw view now).eq_of_mem_iff hlist same
    refine ⟨heq, ?_⟩
    obtain ⟨hid, hle⟩ := (leads_iff_trusted q id).mp hleads
    rw [← heq]
    refine (head_of_least (shownAlive_sorted hw view now)
      ((mem_shownAlive hw view now id).mpr hid) ?_).symm
    intro k hk
    exact hle k ((mem_shownAlive hw view now k).mp hk)
  · refine ⟨[], List.Pairwise.nil, ?_, ?_⟩
    · intro k
      refine iff_of_false List.not_mem_nil ?_
      intro hk
      obtain ⟨j, q, hj, _⟩ := hk
      exact hrun ⟨j, q, hj⟩
    · intro i p hi
      exact absurd ⟨i, p, hi⟩ hrun

/-- A table whose node list has room gets to the operator whole. -/
theorem asked_quiet {p : Process} (hw : WellFormed p.state.members p.daemon.selfId)
    (hnodes : ControlReply.codec.size
      (.nodes (getNodes .newest p.daemon (.early 0) p.state.members)) ≤ maxControlPayload)
    (hmaster : ControlReply.codec.size
      (.master (getMaster .newest p.daemon (.early 0) p.state.members)) ≤ maxControlPayload) :
    ∃ master, Asked p (getNodes .newest p.daemon (.early 0) p.state.members) master := by
  obtain ⟨n, hn, _⟩ := getMaster_spec hw .newest (.early 0)
  let s : UnixStream := ⟨serve (controlReply .newest p.daemon (.early 0) p.state.members)
    (fun _ => ""), true, maxControlPayload + 3⟩
  have hs : Reaches p (some s) := by
    intro x hx
    cases hx
    exact ⟨.newest, .early 0, fun _ => "", rfl⟩
  refine ⟨some n.nodeId, fun _ => "", "", some s, some s, hs, hs, ?_⟩
  have h1 : Hivectl.sendOp s .getNodes =
      .ok (.nodes (getNodes .newest p.daemon (.early 0) p.state.members)) :=
    sendOp_complete (by decide) (by decide) rfl hnodes (Nat.le_refl _)
  have h2 : Hivectl.sendOp s .getMaster =
      .ok (.master (getMaster .newest p.daemon (.early 0) p.state.members)) :=
    sendOp_complete (by decide) (by decide) rfl hmaster (Nat.le_refl _)
  simp only [queryHivebus, h1, h2, hn]

theorem takeover_operators : ∃ p nodes master, (Network.run pair takeover).procs true = some p ∧
    Asked p nodes master ∧ shownAlive nodes = [2] ∧ master = some 2 := by
  have small : ((Before pair takeover takeover.length).procs true).all (fun p =>
      decide (ControlReply.codec.size
        (.nodes (getNodes .newest p.daemon (.early 0) p.state.members)) ≤ maxControlPayload) &&
      decide (ControlReply.codec.size
        (.master (getMaster .newest p.daemon (.early 0) p.state.members)) ≤ maxControlPayload)) =
      true := by decide +kernel
  obtain ⟨p, hp, _, _⟩ := takeover_survivor
  rw [before_length, hp, Option.all_some, Bool.and_eq_true, decide_eq_true_iff, decide_eq_true_iff]
    at small
  obtain ⟨master, hasked⟩ := asked_quiet ((run_sourced pair takeover).procs true p hp).wellFormed
    small.1 small.2
  obtain ⟨shown, hsorted, hrun, hall⟩ := operators_agree pair takeover takeover_steady pair_patient
    (by decide) takeover_prompt takeover_accounted takeover_settled
  obtain ⟨hnodes, hmaster⟩ := hall true p hp _ _ hasked
  have hone : shown = [2] := by
    refine hsorted.eq_of_mem_iff (by decide) ?_
    intro k
    rw [hrun, takeover_running, List.mem_singleton]
  rw [hone] at hnodes hmaster
  exact ⟨p, _, master, hp, hasked, hnodes, hmaster⟩

end Hivebus.Proofs.Operators
