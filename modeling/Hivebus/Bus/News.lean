import Hivebus.Bus.Machine

namespace Hivebus.Bus
open Lib Proto

/-- One piece of news about one other node: a frame of that node itself, or one entry
of somebody's gossip. -/
inductive News where
  | heartbeat (nid : UInt16) (pl : HeartbeatPayload)
  | announce (nid : UInt16) (pl : AnnouncePayload)
  | leave (nid : UInt16) (pl : LeavePayload)
  | gossip (entry : GossipEntry)

namespace News

def subject : News → UInt16
  | .heartbeat nid _ | .announce nid _ | .leave nid _ => nid
  | .gossip entry => entry.nodeId

def incarnation : News → UInt32
  | .heartbeat _ pl => pl.incarnation
  | .announce _ pl => pl.incarnation
  | .leave _ pl => pl.incarnation
  | .gossip entry => entry.incarnation

/-- What the news does to the record of its subject. -/
def onRecord (now : SystemTime) (source : SocketAddr) : News → Option NodeInfo → Option NodeInfo
  | .heartbeat nid pl, r => some (refresh now pl (r.getD (heartbeatRecord now source nid pl)))
  | .announce nid pl, _ => some (announceRecord now nid pl)
  | .leave _ _, r => r.map (fun e => { e with state := .dead })
  | .gossip entry, r => some (absorb entry (r.getD (gossipRecord now source entry)))

def apply (now : SystemTime) (source : SocketAddr) (m : Members) : News → Members
  | .heartbeat nid pl => onHeartbeat now source nid pl m
  | .announce nid pl => onAnnounce now nid pl m
  | .leave nid pl => onLeave nid pl m
  | .gossip entry => m.upsert entry.nodeId (gossipRecord now source entry) (absorb entry)

end News

/-- The news a frame carries to a daemon, in the order it is taken in. -/
def newsOf (selfId : UInt16) (f : Frame) : List News :=
  if f.nodeId = selfId then []
  else
    match f.message with
    | .heartbeat pl => [.heartbeat f.nodeId pl]
    | .announce pl => [.announce f.nodeId pl]
    | .leave pl => [.leave f.nodeId pl]
    | .gossip pl => (pl.entries.filter (fun e => e.nodeId ≠ selfId)).map .gossip
    | .ignored => []

theorem foldl_gossip (selfId : UInt16) (now : SystemTime) (source : SocketAddr)
    (es : List GossipEntry) (m : Members) :
    es.foldl (onGossipEntry selfId now source) m =
      ((es.filter (fun e => e.nodeId ≠ selfId)).map News.gossip).foldl (News.apply now source) m := by
  induction es generalizing m with
  | nil => rfl
  | cons e es ih =>
    by_cases he : e.nodeId = selfId
    · simp only [List.foldl_cons, onGossipEntry, he, ↓reduceIte, ne_eq, not_true_eq_false,
        decide_false, Bool.false_eq_true, not_false_eq_true, List.filter_cons_of_neg]
      exact ih m
    · simp only [List.foldl_cons, onGossipEntry, he, ↓reduceIte, ne_eq, not_false_eq_true,
        decide_true, List.filter_cons_of_pos, List.map_cons, News.apply]
      exact ih _

/-- A frame is taken in one piece of news after the other. -/
theorem handleFrame_eq_foldl (selfId : UInt16) (now : SystemTime) (source : SocketAddr)
    (f : Frame) (m : Members) :
    handleFrame selfId now source f m = (newsOf selfId f).foldl (News.apply now source) m := by
  unfold handleFrame newsOf
  split
  · rfl
  · cases f.message with
    | gossip pl => exact foldl_gossip selfId now source pl.entries m
    | heartbeat pl => rfl
    | announce pl => rfl
    | leave pl => rfl
    | ignored => rfl

theorem newsOf_subject {selfId : UInt16} {f : Frame} {x : News} (h : x ∈ newsOf selfId f) :
    x.subject ≠ selfId := by
  unfold newsOf at h
  split at h
  · cases h
  · next hf =>
    split at h
    · cases List.mem_singleton.mp h
      exact hf
    · cases List.mem_singleton.mp h
      exact hf
    · cases List.mem_singleton.mp h
      exact hf
    · obtain ⟨e, he, rfl⟩ := List.mem_map.mp h
      simpa [News.subject] using (List.mem_filter.mp he).2
    · cases h

/-- News touches the record of its subject and no other. -/
@[simp] theorem lookup_apply (now : SystemTime) (source : SocketAddr) (m : Members) (x : News)
    (k : UInt16) :
    (x.apply now source m).lookup k =
      if k = x.subject then x.onRecord now source (m.lookup k) else m.lookup k := by
  cases x with
  | heartbeat nid pl => exact Table.lookup_upsert m nid k _ _
  | announce nid pl => exact Table.lookup_insert_if m nid k _
  | leave nid pl => exact Table.lookup_modify m nid k _
  | gossip entry => exact Table.lookup_upsert m entry.nodeId k _ _

/-- Two records of a node that differ in nothing but what gossip speaks of. -/
structure SameNode (r r' : NodeInfo) : Prop where
  nodeId : r'.nodeId = r.nodeId
  hostname : r'.hostname = r.hostname
  controlAddr : r'.controlAddr = r.controlAddr
  lastSeen : r'.lastSeen = r.lastSeen
  isMaster : r'.isMaster = r.isMaster

theorem SameNode.refl (r : NodeInfo) : SameNode r r := ⟨rfl, rfl, rfl, rfl, rfl⟩

theorem SameNode.trans {p q r : NodeInfo} (h : SameNode p q) (h' : SameNode q r) : SameNode p r where
  nodeId := h'.nodeId.trans h.nodeId
  hostname := h'.hostname.trans h.hostname
  controlAddr := h'.controlAddr.trans h.controlAddr
  lastSeen := h'.lastSeen.trans h.lastSeen
  isMaster := h'.isMaster.trans h.isMaster

/-- Absorbing gossip leaves a record all but its incarnation and its state. -/
theorem absorb_keeps (entry : GossipEntry) (r : NodeInfo) : SameNode r (absorb entry r) := by
  unfold absorb
  split
  · exact ⟨rfl, rfl, rfl, rfl, rfl⟩
  · exact .refl r

theorem lookup_onGossipEntry (selfId : UInt16) (now : SystemTime) (source : SocketAddr)
    (m : Members) (entry : GossipEntry) (k : UInt16) :
    (onGossipEntry selfId now source m entry).lookup k =
      if k = entry.nodeId ∧ k ≠ selfId then
        some (absorb entry ((m.lookup k).getD (gossipRecord now source entry)))
      else m.lookup k := by
  unfold onGossipEntry
  by_cases hs : entry.nodeId = selfId
  · have hn : ¬ (k = entry.nodeId ∧ k ≠ selfId) := fun h => h.2 (h.1.trans hs)
    rw [if_pos hs, if_neg hn]
  · rw [if_neg hs, Table.lookup_upsert]
    by_cases hk : k = entry.nodeId
    · rw [if_pos hk, if_pos ⟨hk, hk ▸ hs⟩]
    · rw [if_neg hk, if_neg (fun h => hk h.1)]

/-- Gossip leaves as much of a record it finds in the table. -/
theorem gossip_known (selfId : UInt16) (now : SystemTime) (source : SocketAddr) {k : UInt16}
    (entries : List GossipEntry) (m : Members) {r : NodeInfo} (h : m.lookup k = some r) :
    ∃ r', (entries.foldl (onGossipEntry selfId now source) m).lookup k = some r' ∧
      SameNode r r' := by
  induction entries generalizing m r with
  | nil => exact ⟨r, h, .refl r⟩
  | cons entry entries ih =>
    have hl := lookup_onGossipEntry selfId now source m entry k
    rw [List.foldl_cons]
    split at hl
    · rw [h] at hl
      obtain ⟨r', hr', same⟩ := ih _ hl
      exact ⟨r', hr', (absorb_keeps entry r).trans same⟩
    · exact ih _ (hl.trans h)

/-- A node it is the first to name gets the address of whoever gossips, and a stamp of
the moment. -/
theorem gossip_stranger {selfId : UInt16} (now : SystemTime) (source : SocketAddr) {k : UInt16}
    (hk : k ≠ selfId) (entries : List GossipEntry) (m : Members) (h : m.lookup k = none) :
    if ∃ entry ∈ entries, entry.nodeId = k then
      ∃ r', (entries.foldl (onGossipEntry selfId now source) m).lookup k = some r' ∧
        r'.controlAddr = source ∧ r'.lastSeen = now
    else (entries.foldl (onGossipEntry selfId now source) m).lookup k = none := by
  induction entries generalizing m with
  | nil => simpa using h
  | cons entry entries ih =>
    have hl := lookup_onGossipEntry selfId now source m entry k
    rw [List.foldl_cons]
    by_cases hn : k = entry.nodeId
    · rw [if_pos ⟨hn, hk⟩, h] at hl
      obtain ⟨r', hr', same⟩ := gossip_known selfId now source entries _ hl
      have same := (absorb_keeps entry (gossipRecord now source entry)).trans same
      rw [if_pos ⟨entry, List.mem_cons_self, hn.symm⟩]
      exact ⟨r', hr', same.controlAddr, same.lastSeen⟩
    · rw [if_neg (fun hc => hn hc.1), h] at hl
      have hex : (∃ e ∈ entry :: entries, e.nodeId = k) ↔ ∃ e ∈ entries, e.nodeId = k := by
        simp [Ne.symm hn]
      simp only [hex]
      exact ih _ hl

theorem gossip_unnamed (selfId : UInt16) (now : SystemTime) (source : SocketAddr)
    (entries : List GossipEntry) (m : Members) :
    (entries.foldl (onGossipEntry selfId now source) m).lookup selfId = m.lookup selfId := by
  induction entries generalizing m with
  | nil => rfl
  | cons entry entries ih =>
    have hl := lookup_onGossipEntry selfId now source m entry selfId
    rw [if_neg (fun h => h.2 rfl)] at hl
    rw [List.foldl_cons, ih, hl]

/-- A scan treats each record by itself, but for the master flag. -/
theorem lookup_scan (ord : Table.Order UInt16 NodeInfo) (d : Daemon) (now : SystemTime)
    (m : Members) (k : UInt16) :
    (scan ord d now m).lookup k =
      (((m.lookup k).filter (fun node => age now node < cleanupThreshold)).map
        (downgrade d now)).map (fun node => { node with
          isMaster := some node.nodeId == masterFrom ord (agedMembers d now m) d.selfId }) := by
  simp only [scan, agedMembers, Table.lookup_mapValues, Table.lookup_retain]

/-- Downgrading changes the state and nothing else. -/
theorem downgrade_eq (d : Daemon) (now : SystemTime) (node : NodeInfo) :
    ∃ st, downgrade d now node = { node with state := st } := by
  unfold downgrade
  split
  · exact ⟨.dead, rfl⟩
  · split
    · exact ⟨.suspect, rfl⟩
    · exact ⟨node.state, rfl⟩

/-- A record that is there after a scan was there before, young enough, and differs
from what it was in state and master flag only. -/
theorem lookup_scan_some {ord : Table.Order UInt16 NodeInfo} {d : Daemon} {now : SystemTime}
    {m : Members} {k : UInt16} {r' : NodeInfo} (h : (scan ord d now m).lookup k = some r') :
    ∃ r st b, m.lookup k = some r ∧ age now r < cleanupThreshold ∧
      r' = { r with state := st, isMaster := b } := by
  rw [lookup_scan] at h
  obtain ⟨q, hq, he⟩ := Option.map_eq_some_iff.mp h
  obtain ⟨r, hr, rfl⟩ := Option.map_eq_some_iff.mp hq
  obtain ⟨hr, hage⟩ := Option.filter_eq_some_iff.mp hr
  obtain ⟨st, hst⟩ := downgrade_eq d now r
  rw [hst] at he
  exact ⟨r, st, _, hr, by simpa using hage, he.symm⟩

/-- A record is missing after a scan exactly when it was missing or had grown old. -/
theorem lookup_scan_none {ord : Table.Order UInt16 NodeInfo} {d : Daemon} {now : SystemTime}
    {m : Members} {k : UInt16} :
    (scan ord d now m).lookup k = none ↔
      ∀ r, m.lookup k = some r → cleanupThreshold ≤ age now r := by
  rw [lookup_scan, Option.map_eq_none_iff, Option.map_eq_none_iff]
  cases m.lookup k with
  | none => simp
  | some r => simp [Option.filter]

/-- What a task does to the table in one go, with frames cut into their news. -/
inductive Deed where
  | news (source : SocketAddr) (x : News)
  | sample
  | scan

structure Turn where
  now : SystemTime
  deed : Deed

def turn (ord : Table.Order UInt16 NodeInfo) (d : Daemon) (s : State) (t : Turn) : State :=
  match t.deed with
  | .news source x => { s with members := x.apply t.now source s.members }
  | .sample => step ord d s ⟨t.now, .sample⟩
  | .scan => step ord d s ⟨t.now, .scan⟩

def turnsOf (d : Daemon) (e : Event) : List Turn :=
  match e.action with
  | .recv source f => (newsOf d.selfId f).map (fun x => ⟨e.now, .news source x⟩)
  | .sample => [⟨e.now, .sample⟩]
  | .scan => [⟨e.now, .scan⟩]

/-- A run of the daemon, cut into turns. -/
def turns (d : Daemon) (es : List Event) : List Turn := es.flatMap (turnsOf d)

theorem exec_news (ord : Table.Order UInt16 NodeInfo) (d : Daemon) (now : SystemTime)
    (source : SocketAddr) (xs : List News) (s : State) :
    Run.exec (turn ord d) s (xs.map (fun x => ⟨now, .news source x⟩)) =
      { s with members := xs.foldl (News.apply now source) s.members } := by
  induction xs generalizing s with
  | nil => rfl
  | cons x xs ih => exact ih { s with members := x.apply now source s.members }

theorem exec_turnsOf (ord : Table.Order UInt16 NodeInfo) (d : Daemon) (s : State) (e : Event) :
    Run.exec (turn ord d) s (turnsOf d e) = step ord d s e := by
  obtain ⟨now, action⟩ := e
  cases action with
  | recv source f =>
    simp only [turnsOf, exec_news, ← handleFrame_eq_foldl]
    rfl
  | sample => rfl
  | scan => rfl

/-- Cutting a run into turns leads to the same state. -/
theorem run_eq_turns (ord : Table.Order UInt16 NodeInfo) (d : Daemon) (es : List Event) :
    run ord d es = Run.exec (turn ord d) start (turns d es) := by
  have h : ∀ s, Run.exec (step ord d) s es = Run.exec (turn ord d) s (turns d es) := by
    induction es with
    | nil => exact fun s => rfl
    | cons e es ih =>
      intro s
      rw [turns, List.flatMap_cons, Run.exec_append, exec_turnsOf, Run.exec_cons]
      exact ih _
  exact h start

/-- The daemons' own ids never are the subject of a turn. -/
theorem turns_subject {d : Daemon} {es : List Event} {t : Turn} {source : SocketAddr} {x : News}
    (ht : t ∈ turns d es) (hx : t.deed = .news source x) : x.subject ≠ d.selfId := by
  obtain ⟨e, _, he⟩ := List.mem_flatMap.mp ht
  unfold turnsOf at he
  split at he
  · obtain ⟨y, hy, rfl⟩ := List.mem_map.mp he
    cases hx
    exact newsOf_subject hy
  · cases List.mem_singleton.mp he
    cases hx
  · cases List.mem_singleton.mp he
    cases hx

theorem turn_scan (ord : Table.Order UInt16 NodeInfo) (d : Daemon) (s : State) (now : SystemTime) :
    (turn ord d s ⟨now, .scan⟩).members = s.members ∨
      ∃ t, s.sampled = some t ∧
        (turn ord d s ⟨now, .scan⟩).members = scan ord d t s.members := by
  simp only [turn, step]
  cases s.sampled with
  | none => exact .inl rfl
  | some t => exact .inr ⟨t, rfl, rfl⟩

theorem turn_sample (ord : Table.Order UInt16 NodeInfo) (d : Daemon) (s : State)
    (now : SystemTime) : (turn ord d s ⟨now, .sample⟩).members = s.members := by
  simp only [turn, step]
  cases s.sampled <;> rfl

/-- A property of single records that no news and no scan can break survives a step. -/
theorem step_records {ord : Table.Order UInt16 NodeInfo} {d : Daemon}
    {P : UInt16 → NodeInfo → Prop}
    (hnews : ∀ now source (x : News) r r', x.subject ≠ d.selfId → (∀ e, r = some e → P x.subject e) →
      x.onRecord now source r = some r' → P x.subject r')
    (hscan : ∀ k r st b, P k r → P k { r with state := st, isMaster := b }) (s : State) (e : Event)
    (hs : ∀ k r, s.members.lookup k = some r → P k r) :
    ∀ k r, (step ord d s e).members.lookup k = some r → P k r := by
  have fold : ∀ (ts : List Turn) (s : State),
      (∀ t ∈ ts, ∀ source x, t.deed = .news source x → x.subject ≠ d.selfId) →
      (∀ k r, s.members.lookup k = some r → P k r) →
      ∀ k r, (Run.exec (turn ord d) s ts).members.lookup k = some r → P k r := by
    intro ts
    induction ts with
    | nil => exact fun s _ hs => hs
    | cons t ts ih =>
      intro s ht hs
      apply ih (turn ord d s t) (fun u hu => ht u (List.mem_cons_of_mem _ hu))
      intro j e he
      obtain ⟨now, deed⟩ := t
      cases deed with
      | news source x =>
        have hx := ht ⟨now, .news source x⟩ List.mem_cons_self source x rfl
        simp only [turn, lookup_apply] at he
        split at he
        · next hj =>
          subst hj
          exact hnews now source x _ e hx (fun e he => hs _ e he) he
        · exact hs j e he
      | sample =>
        rw [turn_sample] at he
        exact hs j e he
      | scan =>
        rcases turn_scan ord d s now with hm | ⟨t, _, hm⟩
        · rw [hm] at he
          exact hs j e he
        · rw [hm] at he
          obtain ⟨r, st, b, hr, _, rfl⟩ := lookup_scan_some he
          exact hscan j r st b (hs j r hr)
  rw [← exec_turnsOf]
  refine fold (turnsOf d e) s ?_ hs
  intro t ht source x hx
  have hm : t ∈ turns d [e] := by simpa [turns] using ht
  exact turns_subject hm hx

end Hivebus.Bus
