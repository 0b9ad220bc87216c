import Hivebus.Bus.Network
import Hivebus.Proofs.ControlView
import Hivebus.Proofs.Discovery

namespace Hivebus.Proofs.Provenance
open Lib Proto Bus ControlView Discovery

variable {ι : Type}

/-- What daemons may be taken to know of each other: which daemons have run, where their
datagrams come from, what a record and what an entry of gossip may say. -/
structure Creed where
  born : Daemon → Prop
  source : SocketAddr → Prop
  record : UInt16 → NodeInfo → Prop
  entry : GossipEntry → Prop

/-- News is in line with a creed when a daemon that has run sends it of itself, or when it
is gossip that is; nobody ever sends a LEAVE. -/
def Creed.says (c : Creed) : News → Prop
  | .heartbeat nid pl => ∃ d, c.born d ∧ d.selfId = nid ∧ d.incarnation = pl.incarnation
  | .announce nid pl => ∃ d, c.born d ∧ d.selfId = nid ∧ pl = announcePayload d
  | .leave _ _ => False
  | .gossip e => c.entry e

/-- A frame in line comes from a daemon that has run and carries no news that is not. -/
def Creed.utters (c : Creed) (f : Frame) : Prop :=
  (∃ d, c.born d ∧ d.selfId = f.nodeId) ∧
    match f.message with
    | .heartbeat pl => c.says (.heartbeat f.nodeId pl)
    | .announce pl => c.says (.announce f.nodeId pl)
    | .leave pl => c.says (.leave f.nodeId pl)
    | .gossip pl => ∀ e ∈ pl.entries, c.entry e
    | .ignored => False

theorem Creed.utters_says {c : Creed} {f : Frame} (h : c.utters f) (selfId : UInt16) :
    ∀ x ∈ newsOf selfId f, c.says x := by
  intro x hx
  obtain ⟨nid, msg⟩ := f
  unfold newsOf at hx
  split at hx
  · cases hx
  · cases msg with
    | heartbeat pl => exact List.mem_singleton.mp hx ▸ h.2
    | announce pl => exact List.mem_singleton.mp hx ▸ h.2
    | leave pl => exact h.2.elim
    | ignored => exact h.2.elim
    | gossip pl =>
      obtain ⟨e, he, rfl⟩ := List.mem_map.mp hx
      exact h.2 e (List.mem_filter.mp he).1

/-- Taking in what is in line leads to a record that is, and what is said of a record that
is in line is in line again. -/
structure Creed.Closed (c : Creed) : Prop where
  news : ∀ now source x r r', c.source source → c.says x →
    (∀ e, r = some e → c.record x.subject e) → x.onRecord now source r = some r' →
    c.record x.subject r'
  spread : ∀ k r ms, r.nodeId = k → c.record k r → c.entry (gossipEntry ms r)

/-- A datagram in line: it fits the listener's buffer, and it is a frame that is in line. -/
structure Creed.Sends (c : Creed) (dg : Datagram) : Prop where
  source : c.source dg.source
  fits : dg.data.length ≤ maxFrame
  frame : ∃ f, decodeFrame dg.data = some f ∧ c.utters f

structure Creed.Keeps (c : Creed) (p : Process) : Prop where
  born : c.born p.daemon
  wellFormed : WellFormed p.state.members p.daemon.selfId
  records : ∀ k r, p.state.members.lookup k = some r → c.record k r

structure Creed.Holds (c : Creed) (w : Network ι) : Prop where
  procs : ∀ i p, w.procs i = some p → c.Keeps p
  sent : ∀ dg ∈ w.sent, c.Sends dg

variable {c : Creed}

theorem start_holds : c.Holds (Network.start : Network ι) where
  procs := by
    intro i p h
    cases h
  sent := by
    intro dg h
    cases h

theorem encodeMessage_length {seq : UInt8} {nid : UInt16} {msg : Message} {buf : List UInt8}
    (h : encodeMessage seq nid msg = .ok buf) : buf.length ≤ maxFrame := by
  cases msg with
  | ignored => cases h
  | heartbeat pl => exact (encodeFrame_ok h).2.1
  | announce pl => exact (encodeFrame_ok h).2.1
  | leave pl => exact (encodeFrame_ok h).2.1
  | gossip pl => exact (encodeFrame_ok h).2.1

theorem sends_message {source : SocketAddr} (seq : UInt8) (nid : UInt16) (msg : Message)
    {data : List UInt8} (hs : c.source source)
    (hd : (encodeMessage seq nid msg).toOption = some data) (hu : c.utters ⟨nid, msg⟩) :
    c.Sends ⟨source, data⟩ := by
  cases he : encodeMessage seq nid msg with
  | error e =>
    rw [he] at hd
    cases hd
  | ok buf =>
    rw [he] at hd
    cases hd
    exact ⟨hs, encodeMessage_length he, ⟨nid, msg⟩, decodeFrame_encodeMessage he, hu⟩

theorem announce_sends {d : Daemon} {source : SocketAddr} {data : List UInt8} (hb : c.born d)
    (hs : c.source source) (h : announce d = some data) : c.Sends ⟨source, data⟩ :=
  sends_message 0 d.selfId (.announce (announcePayload d)) hs h
    ⟨⟨d, hb, rfl⟩, d, hb, rfl, rfl⟩

theorem heartbeat_sends {d : Daemon} {source : SocketAddr} {ms : UInt64} {seq : UInt8}
    {data : List UInt8} (hb : c.born d) (hs : c.source source)
    (h : (heartbeatRound d ms seq).2 = some data) : c.Sends ⟨source, data⟩ :=
  sends_message seq d.selfId (.heartbeat ⟨d.incarnation, ms⟩) hs h
    ⟨⟨d, hb, rfl⟩, d, hb, rfl, rfl⟩

/-- Each entry of a round of gossip is said of a record of the table. -/
theorem mem_gossipEntries {ord : Table.Order UInt16 NodeInfo} {epochMs : Nat → UInt64}
    {m : Members} {e : GossipEntry} (h : e ∈ gossipEntries ord epochMs m) :
    ∃ k r ms, m.lookup k = some r ∧ e = gossipEntry ms r := by
  obtain ⟨ix, hix, rfl⟩ := List.mem_mapIdx.mp h
  obtain ⟨k, hk⟩ := ord.mem_values.mp (List.getElem_mem hix)
  exact ⟨k, _, _, hk, rfl⟩

theorem gossip_sends {ord : Table.Order UInt16 NodeInfo} {p : Process} {source : SocketAddr}
    {epochMs : Nat → UInt64} {data : List UInt8} (hc : c.Closed) (hp : c.Keeps p)
    (hs : c.source source)
    (h : (gossipRound ord p.daemon epochMs p.gossipSeq p.state.members).2 = some data) :
    c.Sends ⟨source, data⟩ := by
  unfold gossipRound at h
  simp only at h
  split at h
  · cases h
  · refine sends_message p.gossipSeq p.daemon.selfId
      (.gossip ⟨gossipEntries ord epochMs p.state.members⟩) hs h ⟨⟨_, hp.born, rfl⟩, ?_⟩
    intro e he
    obtain ⟨k, r, ms, hr, rfl⟩ := mem_gossipEntries he
    exact hc.spread k r ms (hp.wellFormed k r hr).1 (hp.records k r hr)

theorem start_keeps {d : Daemon} (hb : c.born d) : c.Keeps (.start d) where
  born := hb
  wellFormed := by
    intro k r h
    cases h
  records := by
    intro k r h
    cases h

theorem foldl_records {now : SystemTime} {source : SocketAddr} (hc : c.Closed)
    (hs : c.source source) (xs : List News) (m : Members) (hx : ∀ x ∈ xs, c.says x)
    (hm : ∀ k r, m.lookup k = some r → c.record k r) :
    ∀ k r, (xs.foldl (News.apply now source) m).lookup k = some r → c.record k r := by
  induction xs generalizing m with
  | nil => exact hm
  | cons x xs ih =>
    apply ih (x.apply now source m) (fun y hy => hx y (List.mem_cons_of_mem _ hy))
    intro k r hr
    rw [lookup_apply] at hr
    split at hr
    · next hk =>
      subst hk
      exact hc.news now source x _ r hs (hx x List.mem_cons_self) (fun e he => hm _ e he) hr
    · exact hm k r hr

theorem deliver_keeps {p : Process} {dg : Datagram} {now : SystemTime} (hc : c.Closed)
    (hp : c.Keeps p) (hd : c.Sends dg) :
    c.Keeps (p.recv now dg) := by
  have hfits : dg.data.length ≤ recvBuffer := Nat.le_trans hd.fits (by decide)
  obtain ⟨f, hf, hu⟩ := hd.frame
  rw [Process.recv, List.take_of_length_le hfits]
  refine ⟨hp.born, ?_, ?_⟩
  · -- the listener keeps the table well formed whatever it is handed
    simp only [take_eq]
    exact Run.exec_invariant (I := fun s : State => WellFormed s.members p.daemon.selfId)
      (fun s e hs => step_wellFormed e hs) hp.wellFormed _
  · intro k r hr
    simp only [take, Bus.listen, hf, handleFrame_eq_foldl] at hr
    exact foldl_records hc hd.source _ _ (c.utters_says hu p.daemon.selfId) hp.records k r hr

/-- What a scan that reads the time `t` makes of a record is in line again. -/
def Creed.Spares (c : Creed) (t : SystemTime) (p : Process) : Prop :=
  ∀ k r, p.state.members.lookup k = some r → age t r < cleanupThreshold → c.record k r →
    ∀ b, c.record k { downgrade p.daemon t r with isMaster := b }

theorem scan_keeps {ord : Table.Order UInt16 NodeInfo} {p : Process} {now : SystemTime}
    (hp : c.Keeps p) (hs : ∀ t, p.state.sampled = some t → c.Spares t p) :
    c.Keeps (p.step ord ⟨now, .scan⟩) := by
  refine ⟨hp.born, step_wellFormed _ hp.wellFormed, ?_⟩
  intro k r' hr
  cases ht : p.state.sampled with
  | none =>
    simp only [Process.step, Bus.step, ht] at hr
    exact hp.records k r' hr
  | some t =>
    simp only [Process.step, Bus.step, ht, lookup_scan] at hr
    obtain ⟨q, hq, rfl⟩ := Option.map_eq_some_iff.mp hr
    obtain ⟨r, hf, rfl⟩ := Option.map_eq_some_iff.mp hq
    obtain ⟨hr, hage⟩ := Option.filter_eq_some_iff.mp hf
    exact hs t ht k r hr (by simpa using hage) (hp.records k r hr) _

theorem sample_keeps {p : Process} {now : SystemTime} (hp : c.Keeps p) :
    c.Keeps (p.step Table.Order.newest ⟨now, .sample⟩) := by
  refine ⟨hp.born, step_wellFormed _ hp.wellFormed, ?_⟩
  intro k r hr
  have hm := turn_sample Table.Order.newest p.daemon p.state now
  simp only [turn] at hm
  rw [Process.step, hm] at hr
  exact hp.records k r hr

theorem send_holds {w : Network ι} {source : SocketAddr} {data : Option (List UInt8)} (hw : c.Holds w)
    (hd : ∀ bs, data = some bs → c.Sends ⟨source, bs⟩) : c.Holds (w.send source data) := by
  refine ⟨hw.procs, ?_⟩
  intro dg hdg
  rcases List.mem_append.mp hdg with h | h
  · obtain ⟨bs, hbs, rfl⟩ := Option.map_eq_some_iff.mp (Option.mem_toList.mp h)
    exact hd bs hbs
  · exact hw.sent dg h

/-- A weaker creed is kept wherever a stronger one is. -/
theorem Creed.Holds.mono {c c' : Creed} {w : Network ι} (hw : c.Holds w)
    (hb : ∀ d, c.born d → c'.born d) (hs : ∀ a, c.source a → c'.source a)
    (hr : ∀ k r, c.record k r → c'.record k r) (he : ∀ e, c.entry e → c'.entry e) :
    c'.Holds w where
  procs := by
    intro i p hp
    have hk := hw.procs i p hp
    exact ⟨hb _ hk.born, hk.wellFormed, fun k r h => hr k r (hk.records k r h)⟩
  sent := by
    intro dg hdg
    obtain ⟨hsrc, hfits, ⟨nid, msg⟩, hf, ⟨d, hd, hid⟩, hm⟩ := hw.sent dg hdg
    refine ⟨hs _ hsrc, hfits, ⟨nid, msg⟩, hf, ⟨d, hb d hd, hid⟩, ?_⟩
    cases msg with
    | heartbeat pl =>
      obtain ⟨a, ha, hx⟩ := hm
      exact ⟨a, hb a ha, hx⟩
    | announce pl =>
      obtain ⟨a, ha, hx⟩ := hm
      exact ⟨a, hb a ha, hx⟩
    | leave pl => exact hm
    | gossip pl => exact fun e h => he e (hm e h)
    | ignored => exact hm

/-- A daemon `main` has started in the course of a run. -/
def Born (hosts : ι → Host) (es : List (Happening ι)) (d : Daemon) : Prop :=
  ∃ i now, ⟨now, .boot i⟩ ∈ es ∧ main (hosts i) now = .ok d

/-- A record that goes back to its node: its incarnation is one the node has had, and its
name and address are those it once announced, or stand in for them. -/
structure Sourced (hosts : ι → Host) (born : Daemon → Prop) (k : UInt16) (r : NodeInfo) :
    Prop where
  life : ∃ d, born d ∧ d.selfId = k ∧ d.incarnation = r.incarnation
  named : (r.hostname = nodeName k ∧ ∃ i, (hosts i).source = r.controlAddr) ∨
    ∃ d, born d ∧ d.selfId = k ∧ d.hostname = r.hostname ∧ d.controlAddr = r.controlAddr

/-- Nothing is said of a node that it has not been. -/
def sourcedCreed (hosts : ι → Host) (born : Daemon → Prop) : Creed where
  born := born
  source := fun a => ∃ i, (hosts i).source = a
  record := Sourced hosts born
  entry := fun e => ∃ d, born d ∧ d.selfId = e.nodeId ∧ d.incarnation = e.incarnation

theorem sourcedCreed_closed (hosts : ι → Host) (born : Daemon → Prop) :
    (sourcedCreed hosts born).Closed where
  news := by
    intro now source x r r' hs hx hr h
    cases x with
    | heartbeat nid pl =>
      cases h
      cases r with
      | none => exact ⟨hx, .inl ⟨rfl, hs⟩⟩
      | some e => exact ⟨hx, (hr e rfl).named⟩
    | announce nid pl =>
      obtain ⟨d, hb, hd, rfl⟩ := hx
      cases h
      exact ⟨⟨d, hb, hd, rfl⟩, .inr ⟨d, hb, hd, rfl, rfl⟩⟩
    | leave nid pl => exact hx.elim
    | gossip entry =>
      cases h
      have hd : Sourced hosts born entry.nodeId (r.getD (gossipRecord now source entry)) := by
        cases r with
        | none => exact ⟨hx, .inl ⟨rfl, hs⟩⟩
        | some e => exact hr e rfl
      unfold absorb
      split
      · exact ⟨hx, hd.named⟩
      · exact hd
  spread := by
    intro k r ms hid hr
    cases hid
    exact hr.life

theorem Sourced.mono {hosts : ι → Host} {born born' : Daemon → Prop} {k : UInt16} {r : NodeInfo}
    (h : Sourced hosts born k r) (hb : ∀ d, born d → born' d) : Sourced hosts born' k r where
  life := by
    obtain ⟨d, hd, hk⟩ := h.life
    exact ⟨d, hb d hd, hk⟩
  named := by
    rcases h.named with h | ⟨d, hd, hk⟩
    · exact .inl h
    · exact .inr ⟨d, hb d hd, hk⟩

theorem Born.concat {hosts : ι → Host} {es : List (Happening ι)} {d : Daemon}
    (h : Born hosts es d) (e : Happening ι) : Born hosts (es ++ [e]) d := by
  obtain ⟨i, now, hm, hd⟩ := h
  exact ⟨i, now, List.mem_append_left _ hm, hd⟩

variable [DecidableEq ι] {w : Network ι}

theorem onProcess_holds {i : ι} {f : Process → Process} (hw : c.Holds w)
    (hf : ∀ p, w.procs i = some p → c.Keeps p → c.Keeps (f p)) : c.Holds (w.onProcess i f) := by
  refine ⟨?_, hw.sent⟩
  intro j q hq
  simp only [Network.onProcess, Function.update_apply] at hq
  split at hq
  · obtain ⟨p, hp, rfl⟩ := Option.map_eq_some_iff.mp hq
    exact hf p hp (hw.procs i p hp)
  · exact hw.procs j q hq

theorem replace_holds {i : ι} {p : Option Process} (hw : c.Holds w)
    (hp : ∀ q, p = some q → c.Keeps q) :
    c.Holds { w with procs := Function.update w.procs i p } := by
  refine ⟨?_, hw.sent⟩
  intro j q hq
  simp only [Function.update_apply] at hq
  split at hq
  · exact hp q hq
  · exact hw.procs j q hq

/-- One step of a cluster stays in line with a creed that counts every daemon started
as born and whose records survive the scans. -/
theorem step_holds {hosts : ι → Host} {e : Happening ι} (hc : c.Closed) (hw : c.Holds w)
    (hsource : ∀ i, c.source (hosts i).source)
    (hboot : ∀ i d, e.doing = .boot i → main (hosts i) e.now = .ok d → c.born d)
    (hscan : ∀ i ord p t, e.doing = .scan i ord → w.procs i = some p →
      p.state.sampled = some t → c.Spares t p) : c.Holds (Network.step hosts w e) := by
  unfold Network.step
  cases hd : e.doing with
  | boot i =>
    simp only [Network.boot]
    cases hm : main (hosts i) e.now with
    | error msg => exact replace_holds hw (by simp)
    | ok d =>
      have hb := hboot i d hd hm
      refine send_holds (replace_holds hw ?_) (fun bs h => announce_sends hb (hsource i) h)
      intro q hq
      cases hq
      exact start_keeps hb
  | halt i => exact replace_holds hw (by simp)
  | heartbeat i =>
    cases hp : w.procs i with
    | none => simpa only [hp] using hw
    | some p =>
      have hk := hw.procs i p hp
      simp only [hp]
      exact send_holds (onProcess_holds hw (fun q _ hq => ⟨hq.born, hq.wellFormed, hq.records⟩))
        (fun bs h => heartbeat_sends hk.born (hsource i) h)
  | gossip i ord epochMs =>
    cases hp : w.procs i with
    | none => simpa only [hp] using hw
    | some p =>
      have hk := hw.procs i p hp
      simp only [hp]
      exact send_holds (onProcess_holds hw (fun q _ hq => ⟨hq.born, hq.wellFormed, hq.records⟩))
        (fun bs h => gossip_sends hc hk (hsource i) h)
  | sample i => exact onProcess_holds hw (fun p _ hp => sample_keeps hp)
  | scan i ord =>
    exact onProcess_holds hw (fun p hi hp => scan_keeps hp (fun t ht => hscan i ord p t hd hi ht))
  | deliver ix i =>
    cases hg : w.sent[ix]? with
    | none => simpa only [hg] using hw
    | some dg =>
      simp only [hg]
      exact onProcess_holds hw
        (fun p _ hp => deliver_keeps hc hp (hw.sent dg (List.mem_of_getElem? hg)))

theorem run_sourced (hosts : ι → Host) (es : List (Happening ι)) :
    (sourcedCreed hosts (Born hosts es)).Holds (Network.run hosts es) := by
  refine Run.exec_history (I := fun es w => (sourcedCreed hosts (Born hosts es)).Holds w)
    start_holds ?_ es
  intro pre e hw
  have hw' : (sourcedCreed hosts (Born hosts (pre ++ [e]))).Holds
      (Run.exec (Network.step hosts) Network.start pre) := by
    refine hw.mono (fun d h => h.concat e) (fun a h => h) (fun k r h => h.mono (fun d h => h.concat e)) ?_
    intro g hg
    obtain ⟨d, hd, hk⟩ := hg
    exact ⟨d, hd.concat e, hk⟩
  refine step_holds (sourcedCreed_closed hosts _) hw' (fun i => ⟨i, rfl⟩) ?_ ?_
  · intro i d hd hm
    obtain ⟨now, doing⟩ := e
    cases hd
    exact ⟨i, now, by simp, hm⟩
  · intro i ord p t _ _ _ k r _ _ hr b
    obtain ⟨st, hst⟩ := downgrade_eq p.daemon t r
    rw [hst]
    exact ⟨hr.life, hr.named⟩

end Hivebus.Proofs.Provenance
