import Hivebus.Bus.News

namespace Hivebus.Proofs.Address
open Lib Proto Bus

/-- The daemon together with the addresses each node has shown as its own. -/
structure Traced where
  state : State
  shown : List (UInt16 × SocketAddr)

def Traced.start : Traced := ⟨Bus.start, []⟩

/-- What a frame shows of its sender: where it came from, and the address it announces. -/
def showsOf (source : SocketAddr) (f : Frame) : List (UInt16 × SocketAddr) :=
  match f.message with
  | .announce pl => [(f.nodeId, source), (f.nodeId, pl.controlAddr)]
  | _ => [(f.nodeId, source)]

/-- What happens around a daemon: an event of its own, or a frame somebody sends that
never reaches it. -/
inductive Happening where
  | event (e : Event)
  | missed (source : SocketAddr) (f : Frame)

def trace (ord : Table.Order UInt16 NodeInfo) (d : Daemon) (w : Traced) : Happening → Traced
  | .event ⟨now, .recv source f⟩ =>
    ⟨step ord d w.state ⟨now, .recv source f⟩, w.shown ++ showsOf source f⟩
  | .event ⟨now, .sample⟩ => ⟨step ord d w.state ⟨now, .sample⟩, w.shown⟩
  | .event ⟨now, .scan⟩ => ⟨step ord d w.state ⟨now, .scan⟩, w.shown⟩
  | .missed source f => ⟨w.state, w.shown ++ showsOf source f⟩

/-- Every record has an address that its node has shown as its own. -/
def Owned (w : Traced) : Prop :=
  ∀ n r, w.state.members.lookup n = some r → (n, r.controlAddr) ∈ w.shown

/-- Gossip names a node that is not in the table only from an address that node has
shown as its own. -/
def StrangersShown (d : Daemon) (w : Traced) : Happening → Prop
  | .event ⟨_, .recv source ⟨nid, .gossip pl⟩⟩ =>
    nid ≠ d.selfId → ∀ entry ∈ pl.entries, entry.nodeId ≠ d.selfId →
      entry.nodeId ∉ w.state.members → entry.nodeId = nid ∨ (entry.nodeId, source) ∈ w.shown
  | _ => True

/-- Gossip keeps the table owned exactly when its strangers own its source. -/
theorem gossip_owned {w : Traced} {shown : List (UInt16 × SocketAddr)} {d : Daemon}
    {now : SystemTime} {source : SocketAddr} {pl : GossipPayload}
    (h : Owned w) (hsub : w.shown ⊆ shown) :
    (∀ n r, (onGossip d.selfId now source pl w.state.members).lookup n = some r →
      (n, r.controlAddr) ∈ shown) ↔
    ∀ entry ∈ pl.entries, entry.nodeId ≠ d.selfId → entry.nodeId ∉ w.state.members →
      (entry.nodeId, source) ∈ shown := by
  constructor
  · intro hown entry he hne hout
    have hs := gossip_stranger now source hne pl.entries w.state.members
      (AList.lookup_eq_none.mpr hout)
    rw [if_pos ⟨entry, he, rfl⟩] at hs
    obtain ⟨r, hr, ha, _⟩ := hs
    rw [← ha]
    exact hown _ r hr
  · intro hst n r hr
    cases hn : w.state.members.lookup n with
    | some r₀ =>
      obtain ⟨r', hr', same⟩ := gossip_known d.selfId now source pl.entries w.state.members hn
      rw [onGossip, hr'] at hr
      cases hr
      rw [same.controlAddr]
      exact hsub (h n r₀ hn)
    | none =>
      by_cases hself : n = d.selfId
      · rw [hself, onGossip, gossip_unnamed, ← hself, hn] at hr
        cases hr
      · have hs := gossip_stranger now source hself pl.entries w.state.members hn
        rw [onGossip] at hr
        split at hs
        · next hex =>
          obtain ⟨entry, he, rfl⟩ := hex
          obtain ⟨r', hr', ha, _⟩ := hs
          rw [hr'] at hr
          cases hr
          rw [ha]
          exact hst entry he hself (AList.lookup_eq_none.mp hn)
        · rw [hs] at hr
          cases hr

/-- News that only touches its sender's record, with an address the sender has shown. -/
theorem news_owned {w : Traced} (now : SystemTime) (source : SocketAddr) (x : News)
    {shown : List (UInt16 × SocketAddr)} (h : Owned w) (hsub : w.shown ⊆ shown)
    (haddr : ∀ r₀ r, (∀ e, r₀ = some e → (x.subject, e.controlAddr) ∈ shown) →
      x.onRecord now source r₀ = some r → (x.subject, r.controlAddr) ∈ shown) :
    Owned ⟨{ w.state with members := x.apply now source w.state.members }, shown⟩ := by
  intro n r hr
  simp only [lookup_apply] at hr
  split at hr
  · next hn =>
    subst hn
    exact haddr _ r (fun e he => hsub (h _ e he)) hr
  · exact hsub (h n r hr)

theorem recv_owned {ord : Table.Order UInt16 NodeInfo} {d : Daemon} {w : Traced}
    {now : SystemTime} {source : SocketAddr} {f : Frame} (hf : f.nodeId ≠ d.selfId)
    (h : Owned w) :
    Owned (trace ord d w (.event ⟨now, .recv source f⟩)) ↔
      StrangersShown d w (.event ⟨now, .recv source f⟩) := by
  obtain ⟨nid, msg⟩ := f
  have hne : nid ≠ d.selfId := hf
  have hsub : w.shown ⊆ w.shown ++ showsOf source ⟨nid, msg⟩ := List.subset_append_left _ _
  simp only [trace, step, handleFrame, hne, ↓reduceIte]
  cases msg with
  | gossip pl =>
    have hmem : ∀ k, (k, source) ∈ w.shown ++ showsOf source ⟨nid, .gossip pl⟩ ↔
        k = nid ∨ (k, source) ∈ w.shown := by
      intro k
      simp [showsOf, or_comm]
    refine (gossip_owned h hsub).trans ?_
    simp only [StrangersShown, hmem]
    exact ⟨fun hall _ => hall, fun hall => hall hne⟩
  | heartbeat pl =>
    refine iff_of_true (news_owned now source (.heartbeat nid pl) h hsub ?_) trivial
    intro r₀ r hr₀ hr
    cases hr
    cases r₀ with
    | some e => exact hr₀ e rfl
    | none => simp [showsOf, refresh, heartbeatRecord, News.subject]
  | announce pl =>
    refine iff_of_true (news_owned now source (.announce nid pl) h hsub ?_) trivial
    intro r₀ r _ hr
    cases hr
    simp [showsOf, announceRecord, News.subject]
  | leave pl =>
    refine iff_of_true (news_owned now source (.leave nid pl) h hsub ?_) trivial
    intro r₀ r hr₀ hr
    obtain ⟨e, he, rfl⟩ := Option.map_eq_some_iff.mp hr
    exact hr₀ e he
  | ignored => exact iff_of_true (fun n r hr => hsub (h n r hr)) trivial

theorem scan_owned {ord : Table.Order UInt16 NodeInfo} {d : Daemon} {w : Traced}
    (h : Owned w) (now : SystemTime) : Owned (trace ord d w (.event ⟨now, .scan⟩)) := by
  intro n r hr
  rcases turn_scan ord d w.state now with hm | ⟨t, _, hm⟩
  · exact h n r (by rw [← hm]; exact hr)
  · have hr' : (scan ord d t w.state.members).lookup n = some r := by rw [← hm]; exact hr
    obtain ⟨r₀, st, b, hr₀, _, rfl⟩ := lookup_scan_some hr'
    exact h n r₀ hr₀

/-- One step keeps every address with its node exactly when it brings no stranger from
an address that is not the stranger's. -/
theorem trace_owned (ord : Table.Order UInt16 NodeInfo) (d : Daemon) (w : Traced)
    (e : Happening) (h : Owned w) : Owned (trace ord d w e) ↔ StrangersShown d w e := by
  have keep : ∀ shown, Owned ⟨w.state, w.shown ++ shown⟩ :=
    fun shown n r hr => List.mem_append_left _ (h n r hr)
  cases e with
  | missed source f => exact iff_of_true (keep _) trivial
  | event e =>
    obtain ⟨now, action⟩ := e
    cases action with
    | sample =>
      refine iff_of_true ?_ trivial
      intro n r hr
      exact h n r (by rw [← turn_sample ord d w.state now]; exact hr)
    | scan => exact iff_of_true (scan_owned h now) trivial
    | recv source f =>
      by_cases hself : f.nodeId = d.selfId
      · have hsame : trace ord d w (.event ⟨now, .recv source f⟩) =
            ⟨w.state, w.shown ++ showsOf source f⟩ := by
          simp only [trace, step, handleFrame, hself, ↓reduceIte]
        rw [hsame]
        refine iff_of_true (keep _) ?_
        obtain ⟨nid, msg⟩ := f
        cases msg with
        | gossip pl => exact fun hne => absurd hself hne
        | heartbeat pl => trivial
        | announce pl => trivial
        | leave pl => trivial
        | ignored => trivial
      · exact recv_owned hself h

theorem owned_start : Owned Traced.start := by
  intro n r h
  cases h

/-- In every table a run reaches, the address of each record is one its node has
announced or sent from, exactly when no gossip of the run brings a node into the table
from an address that is not that node's own. -/
theorem address_owned_iff (ord : Table.Order UInt16 NodeInfo) (d : Daemon)
    (es : List Happening) :
    Run.Throughout (trace ord d) Owned Traced.start es ↔
      Run.Along (trace ord d) (StrangersShown d) Traced.start es :=
  Run.throughout_iff_along (trace_owned ord d) owned_start es

/-- Node 1 gossips of node 3, which node 2 has never heard from. -/
def hearsay : Happening :=
  .event ⟨.early 0, .recv (peer 1) ⟨1, .gossip ⟨[⟨3, 1, .alive, 0⟩]⟩⟩⟩

/-- Node 2 then keeps node 1's address for node 3. -/
theorem hearsay_address_not_owned :
    ¬ Run.Throughout (trace .newest node2) Owned Traced.start [hearsay] := by
  intro h
  have ho : Owned (Run.exec (trace .newest node2) Traced.start [hearsay]) := h _ [] rfl
  have hm := ho 3 (absorb ⟨3, 1, .alive, 0⟩ (gossipRecord (.early 0) (peer 1) ⟨3, 1, .alive, 0⟩)) rfl
  revert hm
  decide

end Hivebus.Proofs.Address
