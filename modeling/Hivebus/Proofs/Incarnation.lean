import Hivebus.Bus.News

namespace Hivebus.Proofs.Incarnation
open Lib Proto Bus

/-- The fields a message about a node speaks of. -/
structure SameStanding (r r' : NodeInfo) : Prop where
  state : r'.state = r.state
  incarnation : r'.incarnation = r.incarnation
  hostname : r'.hostname = r.hostname
  controlAddr : r'.controlAddr = r.controlAddr

/-- News older than the record of its subject leaves the record's standing alone. -/
def StaleIgnored (ord : Table.Order UInt16 NodeInfo) (d : Daemon) (s : State) (t : Turn) : Prop :=
  ∀ source x r, t.deed = .news source x → s.members.lookup x.subject = some r →
    x.incarnation < r.incarnation →
    ∃ r', (turn ord d s t).members.lookup x.subject = some r' ∧ SameStanding r r'

/-- While a record stays in the table its incarnation never goes down. -/
def NeverBack (ord : Table.Order UInt16 NodeInfo) (d : Daemon) (ts : List Turn) : Prop :=
  ∀ pre seg post n r r', ts = pre ++ seg ++ post →
    Run.Throughout (turn ord d) (fun s => n ∈ s.members) (Run.exec (turn ord d) start pre) seg →
    (Run.exec (turn ord d) start pre).members.lookup n = some r →
    (Run.exec (turn ord d) start (pre ++ seg)).members.lookup n = some r' →
    r.incarnation ≤ r'.incarnation

/-- News older than the record it is about is gossip, or a leave of a node already
taken for dead. -/
def OldNewsHarmless (s : State) (t : Turn) : Prop :=
  ∀ source x r, t.deed = .news source x → s.members.lookup x.subject = some r →
    x.incarnation < r.incarnation →
    match x with
    | .heartbeat _ _ | .announce _ _ => False
    | .leave _ _ => r.state = .dead
    | .gossip _ => True

/-- The record a piece of news leaves behind, as a step of its subject's record. -/
theorem turn_news (ord : Table.Order UInt16 NodeInfo) (d : Daemon) (s : State) (now : SystemTime)
    (source : SocketAddr) (x : News) :
    (turn ord d s ⟨now, .news source x⟩).members.lookup x.subject =
      x.onRecord now source (s.members.lookup x.subject) := by
  simp only [turn, lookup_apply, ↓reduceIte]

/-- Gossip below the stored incarnation is dropped whole. -/
theorem absorb_stale {entry : GossipEntry} {r : NodeInfo}
    (h : entry.incarnation < r.incarnation) : absorb entry r = r := by
  have hn : ¬ entry.incarnation ≥ r.incarnation := by grind
  rw [absorb, if_neg hn]

theorem absorb_incarnation (entry : GossipEntry) (r : NodeInfo) :
    r.incarnation ≤ (absorb entry r).incarnation := by
  unfold absorb
  split
  · next h => exact h
  · exact UInt32.le_refl _

/-- Of the four handlers only the gossip one compares incarnations; the other three
are harmless exactly when there is nothing left for them to change. -/
theorem stale_ignored_iff (ord : Table.Order UInt16 NodeInfo) (d : Daemon) (s : State) (t : Turn) :
    StaleIgnored ord d s t ↔ OldNewsHarmless s t := by
  constructor
  · intro h source x r hd hr hi
    obtain ⟨now, deed⟩ := t
    cases hd
    obtain ⟨r', hr', same⟩ := h source x r rfl hr hi
    rw [turn_news, hr] at hr'
    cases x with
    | heartbeat nid pl =>
      cases hr'
      have he : pl.incarnation = r.incarnation := same.incarnation
      have hlt : pl.incarnation < r.incarnation := hi
      exact UInt32.lt_irrefl _ (he ▸ hlt)
    | announce nid pl =>
      cases hr'
      have he : pl.incarnation = r.incarnation := same.incarnation
      have hlt : pl.incarnation < r.incarnation := hi
      exact UInt32.lt_irrefl _ (he ▸ hlt)
    | leave nid pl =>
      cases hr'
      exact same.state.symm
    | gossip entry => trivial
  · intro h source x r hd hr hi
    obtain ⟨now, deed⟩ := t
    cases hd
    have hx := h source x r rfl hr hi
    cases x with
    | heartbeat nid pl => exact hx.elim
    | announce nid pl => exact hx.elim
    | leave nid pl =>
      refine ⟨{ r with state := .dead }, ?_, hx.symm, rfl, rfl, rfl⟩
      rw [turn_news, hr]
      rfl
    | gossip entry =>
      refine ⟨r, ?_, rfl, rfl, rfl, rfl⟩
      rw [turn_news, hr]
      exact congrArg some (absorb_stale hi)

/-- One turn without harmful old news does not lower an incarnation. -/
theorem turn_incarnation {ord : Table.Order UInt16 NodeInfo} {d : Daemon} {s : State} {t : Turn}
    {n : UInt16} {r r' : NodeInfo} (h : OldNewsHarmless s t) (hr : s.members.lookup n = some r)
    (hr' : (turn ord d s t).members.lookup n = some r') : r.incarnation ≤ r'.incarnation := by
  obtain ⟨now, deed⟩ := t
  cases deed with
  | sample =>
    rw [turn_sample, hr] at hr'
    cases hr'
    exact UInt32.le_refl _
  | scan =>
    rcases turn_scan ord d s now with hm | ⟨t, _, hm⟩
    · rw [hm, hr] at hr'
      cases hr'
      exact UInt32.le_refl _
    · rw [hm] at hr'
      obtain ⟨q, st, b, hq, _, rfl⟩ := lookup_scan_some hr'
      rw [hr] at hq
      cases hq
      exact UInt32.le_refl _
  | news source x =>
    by_cases hn : n = x.subject
    · subst hn
      rw [turn_news, hr] at hr'
      have hx := h source x r rfl hr
      cases x with
      | heartbeat nid pl =>
        cases hr'
        exact UInt32.not_lt.mp hx
      | announce nid pl =>
        cases hr'
        exact UInt32.not_lt.mp hx
      | leave nid pl =>
        cases hr'
        exact UInt32.le_refl _
      | gossip entry =>
        cases hr'
        exact absorb_incarnation entry r
    · simp only [turn, lookup_apply, hn, ↓reduceIte, hr, Option.some.injEq] at hr'
      cases hr'
      exact UInt32.le_refl _

theorem segment_incarnation {ord : Table.Order UInt16 NodeInfo} {d : Daemon} {n : UInt16}
    (seg : List Turn) (s : State) (r r' : NodeInfo)
    (hc : Run.Along (turn ord d) OldNewsHarmless s seg)
    (hp : Run.Throughout (turn ord d) (fun s => n ∈ s.members) s seg)
    (hr : s.members.lookup n = some r)
    (hr' : (Run.exec (turn ord d) s seg).members.lookup n = some r') :
    r.incarnation ≤ r'.incarnation := by
  induction seg generalizing s r with
  | nil =>
    rw [Run.exec_nil, hr] at hr'
    cases hr'
    exact UInt32.le_refl _
  | cons t seg ih =>
    obtain ⟨ht, hc⟩ := Run.along_cons.mp hc
    obtain ⟨_, hp⟩ := Run.throughout_cons.mp hp
    have hin : n ∈ (turn ord d s t).members := hp [] seg rfl
    obtain ⟨q, hq⟩ := Option.isSome_iff_exists.mp (AList.lookup_isSome.mpr hin)
    exact UInt32.le_trans (turn_incarnation ht hr hq) (ih (turn ord d s t) q hc hp hq hr')

/-- Over every run, stale news is ignored and no incarnation goes back if and only if
the run brings no old news that the three direct handlers would act on. -/
theorem stale_news_iff (ord : Table.Order UInt16 NodeInfo) (d : Daemon) (es : List Event) :
    (Run.Along (turn ord d) (StaleIgnored ord d) start (turns d es) ∧
      NeverBack ord d (turns d es)) ↔
    Run.Along (turn ord d) OldNewsHarmless start (turns d es) := by
  rw [Run.along_congr (fun pre t post _ => stale_ignored_iff ord d _ t)]
  refine ⟨fun h => h.1, fun h => ⟨h, ?_⟩⟩
  intro pre seg post n r r' he hp hr hr'
  rw [Run.exec_append] at hr'
  rw [he] at h
  exact segment_incarnation seg _ r r' (Run.along_segment h) hp hr hr'

/-- Two heartbeats of node 1 that overtook each other: incarnation 5, then 3. -/
def reorderedHeartbeats : List Event :=
  [⟨.early 0, .recv (peer 1) ⟨1, .heartbeat ⟨5, 0⟩⟩⟩,
    ⟨.early 1, .recv (peer 1) ⟨1, .heartbeat ⟨3, 0⟩⟩⟩]

theorem reordered_heartbeats_override :
    ¬ (Run.Along (turn .newest node2) (StaleIgnored .newest node2) start
        (turns node2 reorderedHeartbeats) ∧
      NeverBack .newest node2 (turns node2 reorderedHeartbeats)) := by
  intro both
  obtain ⟨h, _⟩ := both
  have hs := h [⟨.early 0, .news (peer 1) (.heartbeat 1 ⟨5, 0⟩)⟩]
    ⟨.early 1, .news (peer 1) (.heartbeat 1 ⟨3, 0⟩)⟩ [] rfl
  exact (stale_ignored_iff _ _ _ _).mp hs (peer 1) (.heartbeat 1 ⟨3, 0⟩) _ rfl rfl (by decide)

/-- Gossip that is not newer than the record of its subject leaves its state alone. -/
def GossipInert (ord : Table.Order UInt16 NodeInfo) (d : Daemon) (s : State) (t : Turn) : Prop :=
  ∀ source entry r, t.deed = .news source (.gossip entry) →
    s.members.lookup entry.nodeId = some r → entry.incarnation ≤ r.incarnation →
    ∃ r', (turn ord d s t).members.lookup entry.nodeId = some r' ∧ r'.state = r.state

/-- Between frames of `n` itself, and with no scan, gossip that is not newer than what
is recorded leaves the state of `n` what it was. -/
def QuietSegments (ord : Table.Order UInt16 NodeInfo) (d : Daemon) (ts : List Turn) : Prop :=
  ∀ pre seg post n r, ts = pre ++ seg ++ post →
    (Run.exec (turn ord d) start pre).members.lookup n = some r →
    (∀ t ∈ seg, ∃ source x, t.deed = .news source x ∧
      (x.subject = n → ∃ entry, x = .gossip entry ∧ entry.incarnation ≤ r.incarnation)) →
    ∃ r', (Run.exec (turn ord d) start (pre ++ seg)).members.lookup n = some r' ∧
      r'.state = r.state

/-- Gossip at exactly the stored incarnation brings the stored state. -/
def TiesAgree (s : State) (t : Turn) : Prop :=
  ∀ source entry r, t.deed = .news source (.gossip entry) →
    s.members.lookup entry.nodeId = some r → entry.incarnation = r.incarnation →
    entry.state = r.state

theorem absorb_tie {entry : GossipEntry} {r : NodeInfo}
    (h : entry.incarnation = r.incarnation) :
    absorb entry r = { r with state := entry.state } := by
  have hge : entry.incarnation ≥ r.incarnation := by
    rw [h]
    exact UInt32.le_refl _
  rw [absorb, if_pos hge, h]

/-- The comparison in the gossip handler is not strict, so a tie is where it acts. -/
theorem gossip_inert_iff (ord : Table.Order UInt16 NodeInfo) (d : Daemon) (s : State) (t : Turn) :
    GossipInert ord d s t ↔ TiesAgree s t := by
  constructor
  · intro h source entry r hd hr hi
    obtain ⟨now, deed⟩ := t
    cases hd
    obtain ⟨r', hr', hs⟩ := h source entry r rfl hr (by rw [hi]; exact UInt32.le_refl _)
    have ht := turn_news ord d s now source (.gossip entry)
    simp only [News.subject, hr, News.onRecord, Option.getD_some, absorb_tie hi] at ht
    rw [ht] at hr'
    cases hr'
    exact hs
  · intro h source entry r hd hr hi
    obtain ⟨now, deed⟩ := t
    cases hd
    refine ⟨absorb entry r, ?_, ?_⟩
    · have ht := turn_news ord d s now source (.gossip entry)
      simpa only [News.subject, hr, News.onRecord, Option.getD_some] using ht
    · by_cases he : entry.incarnation = r.incarnation
      · rw [absorb_tie he]
        exact h source entry r rfl hr he
      · rw [absorb_stale (by grind)]

/-- One turn of the kind a quiet segment is made of. -/
theorem quiet_turn (ord : Table.Order UInt16 NodeInfo) (d : Daemon) {s : State} {t : Turn}
    {n : UInt16} {r : NodeInfo} {source : SocketAddr} {x : News} (hc : TiesAgree s t)
    (hr : s.members.lookup n = some r) (hd : t.deed = .news source x)
    (hx : x.subject = n → ∃ entry, x = .gossip entry ∧ entry.incarnation ≤ r.incarnation) :
    ∃ r', (turn ord d s t).members.lookup n = some r' ∧ r'.state = r.state ∧
      r'.incarnation = r.incarnation := by
  obtain ⟨now, deed⟩ := t
  cases hd
  by_cases hn : x.subject = n
  · obtain ⟨entry, rfl, hi⟩ := hx hn
    cases hn
    have hr : s.members.lookup entry.nodeId = some r := hr
    have ht := turn_news ord d s now source (.gossip entry)
    simp only [News.subject, hr, News.onRecord, Option.getD_some] at ht
    refine ⟨absorb entry r, ht, ?_⟩
    by_cases he : entry.incarnation = r.incarnation
    · rw [absorb_tie he]
      exact ⟨hc source entry r rfl hr he, rfl⟩
    · rw [absorb_stale (by grind)]
      exact ⟨rfl, rfl⟩
  · refine ⟨r, ?_, rfl, rfl⟩
    simp only [turn, lookup_apply, Ne.symm hn, ↓reduceIte, hr]

theorem quiet_segment {ord : Table.Order UInt16 NodeInfo} {d : Daemon} {n : UInt16}
    (seg : List Turn) (s : State) (r : NodeInfo)
    (hc : Run.Along (turn ord d) TiesAgree s seg) (hr : s.members.lookup n = some r)
    (hq : ∀ t ∈ seg, ∃ source x, t.deed = .news source x ∧
      (x.subject = n → ∃ entry, x = .gossip entry ∧ entry.incarnation ≤ r.incarnation)) :
    ∃ r', (Run.exec (turn ord d) s seg).members.lookup n = some r' ∧ r'.state = r.state := by
  induction seg generalizing s r with
  | nil => exact ⟨r, hr, rfl⟩
  | cons t seg ih =>
    obtain ⟨ht, hc⟩ := Run.along_cons.mp hc
    obtain ⟨source, x, hd, hx⟩ := hq t List.mem_cons_self
    obtain ⟨q, hq', hs, hi⟩ := quiet_turn ord d ht hr hd hx
    have hrest := fun u hu => hq u (List.mem_cons_of_mem _ hu)
    rw [← hi] at hrest
    obtain ⟨r', hr', hs'⟩ := ih (turn ord d s t) q hc hq' hrest
    exact ⟨r', hr', hs'.trans hs⟩

/-- Over every run, gossip acts on newer incarnations only if and only if no entry
carries the stored incarnation with another state than the stored one. -/
theorem gossip_acts_on_newer_iff (ord : Table.Order UInt16 NodeInfo) (d : Daemon)
    (es : List Event) :
    (Run.Along (turn ord d) (GossipInert ord d) start (turns d es) ∧
      QuietSegments ord d (turns d es)) ↔
    Run.Along (turn ord d) TiesAgree start (turns d es) := by
  rw [Run.along_congr (fun pre t post _ => gossip_inert_iff ord d _ t)]
  refine ⟨fun h => h.1, fun h => ⟨h, ?_⟩⟩
  intro pre seg post n r he hr hq
  rw [Run.exec_append]
  rw [he] at h
  exact quiet_segment seg _ r (Run.along_segment h) hr hq

/-- Node 1 is heard, leaves, and is then gossiped about by node 3, which has not seen
the leave. -/
def goneAndGossiped : List Event :=
  [⟨.early 0, .recv (peer 1) ⟨1, .heartbeat ⟨5, 0⟩⟩⟩,
    ⟨.early 1, .recv (peer 1) ⟨1, .leave ⟨5, "shutdown"⟩⟩⟩,
    ⟨.early 2, .recv (peer 3) ⟨3, .gossip ⟨[⟨1, 5, .alive, 0⟩]⟩⟩⟩]

theorem gossip_revives_departed :
    ¬ (Run.Along (turn .newest node2) (GossipInert .newest node2) start
        (turns node2 goneAndGossiped) ∧
      QuietSegments .newest node2 (turns node2 goneAndGossiped)) := by
  intro both
  obtain ⟨h, _⟩ := both
  have hs := h [⟨.early 0, .news (peer 1) (.heartbeat 1 ⟨5, 0⟩)⟩,
      ⟨.early 1, .news (peer 1) (.leave 1 ⟨5, "shutdown"⟩)⟩]
    ⟨.early 2, .news (peer 3) (.gossip ⟨1, 5, .alive, 0⟩)⟩ [] rfl
  have ht := (gossip_inert_iff _ _ _ _).mp hs (peer 3) ⟨1, 5, .alive, 0⟩ _ rfl rfl rfl
  cases ht

end Hivebus.Proofs.Incarnation
