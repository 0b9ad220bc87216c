import Mathlib.Logic.Function.Basic
import Hivebus.Bus.News

namespace Hivebus.Proofs.Eviction
open Lib Proto Bus

/-- A run whose events are in the order of the clock. -/
structure Timeline where
  events : List Event
  ordered : events.Pairwise (fun a b => a.now ≤ b.now)

/-- News that counts as hearing of its subject: a heartbeat or an announcement, or the
gossip entry that brings the subject into the table. -/
def hears (m : Members) : News → Bool
  | .heartbeat _ _ | .announce _ _ => true
  | .leave _ _ => false
  | .gossip entry => (m.lookup entry.nodeId).isNone

/-- The daemon together with the time each node was last heard of, which the daemon
itself does not keep. -/
structure Watched where
  state : State
  heard : UInt16 → Option SystemTime

def Watched.start : Watched := ⟨Bus.start, fun _ => none⟩

def watch (ord : Table.Order UInt16 NodeInfo) (d : Daemon) (w : Watched) (t : Turn) : Watched where
  state := turn ord d w.state t
  heard :=
    match t.deed with
    | .news _ x =>
      if hears w.state.members x then Function.update w.heard x.subject (some t.now) else w.heard
    | .sample | .scan => w.heard

/-- Watching does not disturb the daemon. -/
theorem exec_watch_state (ord : Table.Order UInt16 NodeInfo) (d : Daemon) (w : Watched)
    (ts : List Turn) :
    (Run.exec (watch ord d) w ts).state = Run.exec (turn ord d) w.state ts :=
  Run.exec_hom Watched.state (fun _ _ => rfl) w ts

theorem watched_run (ord : Table.Order UInt16 NodeInfo) (d : Daemon) (es : List Event) :
    (Run.exec (watch ord d) Watched.start (turns d es)).state = run ord d es := by
  rw [exec_watch_state, run_eq_turns]
  rfl

/-- A node that a scan drops was last heard of at least the cleanup threshold before
the scan. -/
def FreshKept (ord : Table.Order UInt16 NodeInfo) (d : Daemon) (w : Watched) (t : Turn) : Prop :=
  t.deed = .scan → ∀ n, n ∈ w.state.members → n ∉ (turn ord d w.state t).members →
    ∃ s, w.heard n = some s ∧ s.ns + cleanupThreshold ≤ t.now.ns

/-- When a scan takes the lock, no record carries a stamp later than the time the scan
sampled, unless that stamp is itself past the cleanup threshold by now. -/
def NoneStampedSince (w : Watched) (t : Turn) : Prop :=
  t.deed = .scan → ∀ sampled n r, w.state.sampled = some sampled →
    w.state.members.lookup n = some r → sampled < r.lastSeen →
    r.lastSeen.ns + cleanupThreshold ≤ t.now.ns

/-- A record carries the time its node was last heard of. -/
def Stamped (w : Watched) : Prop :=
  ∀ n r, w.state.members.lookup n = some r → w.heard n = some r.lastSeen

theorem onRecord_lastSeen {now : SystemTime} {source : SocketAddr} {m : Members} {x : News}
    {r' : NodeInfo} (h : x.onRecord now source (m.lookup x.subject) = some r') :
    if hears m x then r'.lastSeen = now
    else ∃ r, m.lookup x.subject = some r ∧ r'.lastSeen = r.lastSeen := by
  have ha : ∀ (entry : GossipEntry) (r : NodeInfo), (absorb entry r).lastSeen = r.lastSeen := by
    intro entry r
    unfold absorb
    split <;> rfl
  cases x with
  | heartbeat nid pl =>
    cases h
    rfl
  | announce nid pl =>
    cases h
    rfl
  | leave nid pl =>
    obtain ⟨r, hr, rfl⟩ := Option.map_eq_some_iff.mp h
    exact ⟨r, hr, rfl⟩
  | gossip entry =>
    cases h
    cases hr : m.lookup entry.nodeId with
    | none =>
      simp only [hears, hr, Option.isNone_none, ↓reduceIte, News.subject, ha, Option.getD_none]
      rfl
    | some r =>
      simp only [hears, hr, Option.isNone_some, Bool.false_eq_true, ↓reduceIte, News.subject, ha,
        Option.getD_some]
      exact ⟨r, rfl, rfl⟩

/-- A record that is there after a turn was stamped by the turn, which then brought news
that counts as hearing of its node, or carries the stamp it had before. -/
theorem turn_lastSeen {ord : Table.Order UInt16 NodeInfo} {d : Daemon} {s : State} {t : Turn}
    {n : UInt16} {r' : NodeInfo} (h : (turn ord d s t).members.lookup n = some r') :
    (∃ source x, t.deed = .news source x ∧ x.subject = n ∧ hears s.members x = true ∧
      r'.lastSeen = t.now) ∨
    (∃ r, s.members.lookup n = some r ∧ r'.lastSeen = r.lastSeen ∧
      ∀ source x, t.deed = .news source x → x.subject = n → hears s.members x = false) := by
  obtain ⟨now, deed⟩ := t
  cases deed with
  | news source x =>
    simp only [turn, lookup_apply] at h
    split at h
    · next hn =>
      subst hn
      have hl := onRecord_lastSeen h
      split at hl
      · next hx => exact .inl ⟨source, x, rfl, rfl, hx, hl⟩
      · next hx =>
        obtain ⟨r, hr, he⟩ := hl
        refine .inr ⟨r, hr, he, ?_⟩
        intro source' y hd _
        cases hd
        exact Bool.not_eq_true _ ▸ hx
    · next hn =>
      refine .inr ⟨r', h, rfl, ?_⟩
      intro source' y hd hy
      cases hd
      exact absurd hy.symm hn
  | sample =>
    rw [turn_sample] at h
    refine .inr ⟨r', h, rfl, ?_⟩
    intro _ _ hd
    cases hd
  | scan =>
    have hquiet : ∀ source x, (⟨now, .scan⟩ : Turn).deed = .news source x → x.subject = n →
        hears s.members x = false := by
      intro _ _ hd
      cases hd
    rcases turn_scan ord d s now with hm | ⟨sampled, _, hm⟩
    · rw [hm] at h
      exact .inr ⟨r', h, rfl, hquiet⟩
    · rw [hm] at h
      obtain ⟨r, st, b, hr, _, rfl⟩ := lookup_scan_some h
      exact .inr ⟨r, hr, rfl, hquiet⟩

theorem watch_stamped (ord : Table.Order UInt16 NodeInfo) (d : Daemon) (w : Watched) (t : Turn)
    (h : Stamped w) : Stamped (watch ord d w t) := by
  intro n r' hr'
  rcases turn_lastSeen hr' with ⟨source, x, hd, hn, hx, he⟩ | ⟨r, hr, he, hnot⟩
  · subst hn
    simp only [watch, hd, hx, ↓reduceIte, Function.update_self, he]
  · rw [he, ← h n r hr]
    obtain ⟨now, deed⟩ := t
    cases deed with
    | news source x =>
      simp only [watch]
      split
      · next hx =>
        have hn : n ≠ x.subject := by
          intro hn
          rw [hnot source x rfl hn.symm] at hx
          cases hx
        rw [Function.update_of_ne hn]
      · rfl
    | sample => rfl
    | scan => rfl

/-- The time a waiting scan has sampled was on the clock at an earlier turn. -/
theorem sampled_earlier (ord : Table.Order UInt16 NodeInfo) (d : Daemon) (ts : List Turn)
    (w : Watched) {now : SystemTime}
    (h : (Run.exec (watch ord d) w ts).state.sampled = some now) :
    w.state.sampled = some now ∨ ∃ t ∈ ts, t.now = now := by
  induction ts generalizing w with
  | nil => exact .inl h
  | cons t ts ih =>
    rcases ih (watch ord d w t) h with h | ⟨u, hu, he⟩
    · obtain ⟨at', deed⟩ := t
      cases deed with
      | news source x => exact .inl h
      | sample =>
        simp only [watch, turn, step] at h
        cases hs : w.state.sampled with
        | none =>
          rw [hs] at h
          cases h
          exact .inr ⟨_, List.mem_cons_self, rfl⟩
        | some s =>
          rw [hs] at h
          rw [← hs]
          exact .inl h
      | scan =>
        simp only [watch, turn, step] at h
        cases hs : w.state.sampled with
        | none =>
          rw [hs] at h
          rw [← hs]
          exact .inl h
        | some s =>
          rw [hs] at h
          cases h
    · exact .inr ⟨u, List.mem_cons_of_mem _ hu, he⟩

/-- A scan drops exactly the records whose age it takes to be past the threshold, and
a stamp later than the sampled time counts as such an age. -/
theorem age_ge_iff (now : SystemTime) (r : NodeInfo) :
    cleanupThreshold ≤ age now r ↔
      now < r.lastSeen ∨ r.lastSeen.ns + cleanupThreshold ≤ now.ns := by
  have hmax : cleanupThreshold ≤ Duration.max := by decide
  have hlt : now < r.lastSeen ↔ now.ns < r.lastSeen.ns := Iff.rfl
  have hle : r.lastSeen ≤ now ↔ r.lastSeen.ns ≤ now.ns := Iff.rfl
  rw [age, SystemTime.durationSince, hlt]
  split
  · next h =>
    rw [hle] at h
    have hsub : (cleanupThreshold : Nat) ≤ now.ns - r.lastSeen.ns ↔
        r.lastSeen.ns + cleanupThreshold ≤ now.ns := by
      rw [Nat.le_sub_iff_add_le h, Nat.add_comm]
    exact hsub.trans (or_iff_right (Nat.not_lt.mpr h)).symm
  · next h =>
    rw [hle] at h
    exact ⟨fun _ => .inl (Nat.lt_of_not_le h), fun _ => hmax⟩

theorem turns_ordered (d : Daemon) {es : List Event}
    (h : es.Pairwise (fun a b => a.now ≤ b.now)) :
    (turns d es).Pairwise (fun a b => a.now ≤ b.now) := by
  have hnow : ∀ e, ∀ t ∈ turnsOf d e, t.now = e.now := by
    intro e t ht
    unfold turnsOf at ht
    split at ht
    · obtain ⟨x, _, rfl⟩ := List.mem_map.mp ht
      rfl
    · cases List.mem_singleton.mp ht
      rfl
    · cases List.mem_singleton.mp ht
      rfl
  rw [turns, List.pairwise_flatMap]
  refine ⟨?_, h.imp ?_⟩
  · intro e _
    apply List.pairwise_of_forall_mem_list
    intro a ha b hb
    rw [hnow e a ha, hnow e b hb]
    exact Nat.le_refl _
  · intro e f hef a ha b hb
    rw [hnow e a ha, hnow f b hb]
    exact hef

/-- One turn drops only what has been silent long enough if and only if nothing was
stamped between the sample and the lock. -/
theorem fresh_kept_iff (ord : Table.Order UInt16 NodeInfo) (d : Daemon) {w : Watched} {t : Turn}
    (hs : Stamped w) (hc : ∀ sampled, w.state.sampled = some sampled → sampled ≤ t.now) :
    FreshKept ord d w t ↔ NoneStampedSince w t := by
  obtain ⟨now, deed⟩ := t
  constructor
  · intro h hd sampled n r hsam hr hlate
    cases hd
    have hm : (turn ord d w.state ⟨now, .scan⟩).members = scan ord d sampled w.state.members := by
      simp only [turn, step, hsam]
    have hgone : n ∉ (turn ord d w.state ⟨now, .scan⟩).members := by
      rw [hm, ← AList.lookup_eq_none, lookup_scan_none]
      intro q hq
      rw [hr] at hq
      cases hq
      exact (age_ge_iff sampled r).mpr (.inl hlate)
    have hin : n ∈ w.state.members := AList.lookup_isSome.mp (by rw [hr]; rfl)
    obtain ⟨s, hheard, hold⟩ := h rfl n hin hgone
    rw [hs n r hr] at hheard
    cases hheard
    exact hold
  · intro h hd n hin hgone
    cases hd
    obtain ⟨r, hr⟩ := Option.isSome_iff_exists.mp (AList.lookup_isSome.mpr hin)
    refine ⟨r.lastSeen, hs n r hr, ?_⟩
    rcases turn_scan ord d w.state now with hm | ⟨sampled, hsam, hm⟩
    · rw [hm] at hgone
      exact absurd hin hgone
    · rw [hm, ← AList.lookup_eq_none, lookup_scan_none] at hgone
      rcases (age_ge_iff sampled r).mp (hgone r hr) with hlate | hold
      · exact h rfl sampled n r hsam hr hlate
      · exact Nat.le_trans hold (hc sampled hsam)

/-- In every run under one clock, scans drop only nodes that have been silent for the
cleanup threshold if and only if no scan finds a stamp later than the time it sampled. -/
theorem fresh_member_kept_iff (ord : Table.Order UInt16 NodeInfo) (d : Daemon) (es : Timeline) :
    Run.Along (watch ord d) (FreshKept ord d) Watched.start (turns d es.events) ↔
      Run.Along (watch ord d) NoneStampedSince Watched.start (turns d es.events) := by
  have hord := turns_ordered d es.ordered
  have hstart : Stamped Watched.start := fun n r h => (nomatch h)
  apply Run.along_congr
  intro pre t post he
  apply fresh_kept_iff ord d (Run.exec_invariant (watch_stamped ord d) hstart pre)
  intro sampled hsam
  rcases sampled_earlier ord d pre Watched.start hsam with h | ⟨u, hu, rfl⟩
  · cases h
  · rw [he, List.pairwise_append] at hord
    exact hord.2.2 u hu t List.mem_cons_self

/-- A heartbeat of node 1 is taken in between the sample of a scan and its lock. -/
def heardWhileWaiting : Timeline where
  events := [⟨.early 0, .sample⟩,
    ⟨.early 1, .recv (peer 1) ⟨1, .heartbeat ⟨5, 0⟩⟩⟩,
    ⟨.early 2, .scan⟩]
  ordered := by decide

theorem fresh_member_evicted :
    ¬ Run.Along (watch .newest node2) (FreshKept .newest node2) Watched.start
      (turns node2 heardWhileWaiting.events) := by
  intro h
  have hf := h [⟨.early 0, .sample⟩,
      ⟨.early 1, .news (peer 1) (.heartbeat 1 ⟨5, 0⟩)⟩] ⟨.early 2, .scan⟩ [] rfl
  obtain ⟨s, hs, hold⟩ := hf rfl 1 (by decide) (by decide)
  cases hs
  exact absurd hold (by decide)

end Hivebus.Proofs.Eviction
