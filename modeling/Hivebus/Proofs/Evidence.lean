import Mathlib.Data.List.Induction
import Hivebus.Proofs.Eviction

namespace Hivebus.Proofs.Evidence
open Lib Proto Bus Eviction

/-- At time `s` of a history the daemon took in a heartbeat or an announcement of `n`, or
the gossip entry that made the record `n` has had ever since. -/
def HeardAt (ord : Table.Order UInt16 NodeInfo) (d : Daemon) (ts : List Turn) (n : UInt16)
    (s : SystemTime) : Prop :=
  ∃ pre t seg source x, ts = pre ++ t :: seg ∧ t.now = s ∧ t.deed = .news source x ∧
    x.subject = n ∧
    match x with
    | .heartbeat _ _ | .announce _ _ => True
    | .leave _ _ => False
    | .gossip _ =>
      n ∉ (Run.exec (turn ord d) start pre).members ∧
      Run.Throughout (turn ord d) (fun s => n ∈ s.members)
        (Run.exec (turn ord d) start (pre ++ [t])) seg

/-- Right after a scan that used time `now`, only those are Alive who were heard of
within both thresholds of `now`. -/
def AliveMeansHeard (ord : Table.Order UInt16 NodeInfo) (d : Daemon) (ts : List Turn) : Prop :=
  ∀ pre t post now n r, ts = pre ++ t :: post → t.deed = .scan →
    (Run.exec (turn ord d) start pre).sampled = some now →
    (Run.exec (turn ord d) start (pre ++ [t])).members.lookup n = some r → r.state = .alive →
    ∃ s, now.ns ≤ s.ns + d.suspectThreshold ∧ s ≤ now ∧ now.ns ≤ s.ns + d.deadThreshold ∧
      HeardAt ord d pre n s

/-- What was heard stays heard as long as the record is there. -/
theorem HeardAt.concat {ord : Table.Order UInt16 NodeInfo} {d : Daemon} {ts : List Turn}
    {n : UInt16} {s : SystemTime} (h : HeardAt ord d ts n s) (t : Turn)
    (hin : n ∈ (Run.exec (turn ord d) start (ts ++ [t])).members) :
    HeardAt ord d (ts ++ [t]) n s := by
  obtain ⟨pre, u, seg, source, x, rfl, hnow, hd, hx, hk⟩ := h
  refine ⟨pre, u, seg ++ [t], source, x, by simp, hnow, hd, hx, ?_⟩
  cases x with
  | heartbeat nid pl => trivial
  | announce nid pl => trivial
  | leave nid pl => exact hk
  | gossip entry =>
    refine ⟨hk.1, Run.throughout_concat hk.2 ?_⟩
    rw [← Run.exec_append]
    simpa using hin

theorem heardAt_hears {ord : Table.Order UInt16 NodeInfo} {d : Daemon} {ts : List Turn} {t : Turn}
    {source : SocketAddr} {x : News} (hd : t.deed = .news source x)
    (hx : hears (Run.exec (turn ord d) start ts).members x = true)
    (hin : x.subject ∈ (Run.exec (turn ord d) start (ts ++ [t])).members) :
    HeardAt ord d (ts ++ [t]) x.subject t.now := by
  refine ⟨ts, t, [], source, x, rfl, rfl, hd, rfl, ?_⟩
  cases x with
  | heartbeat nid pl => trivial
  | announce nid pl => trivial
  | leave nid pl => cases hx
  | gossip entry =>
    refine ⟨?_, Run.throughout_nil.mpr hin⟩
    rw [← AList.lookup_eq_none]
    exact Option.isNone_iff_eq_none.mp hx

/-- Every record carries the time of the evidence it rests on. -/
theorem record_heard (ord : Table.Order UInt16 NodeInfo) (d : Daemon) (ts : List Turn) :
    ∀ n r, (Run.exec (turn ord d) start ts).members.lookup n = some r →
      HeardAt ord d ts n r.lastSeen := by
  induction ts using List.reverseRecOn with
  | nil =>
    intro n r h
    cases h
  | append_singleton ts t ih =>
    intro n r' hr'
    have hin : n ∈ (Run.exec (turn ord d) start (ts ++ [t])).members :=
      AList.lookup_isSome.mp (by rw [hr']; rfl)
    have hstep := hr'
    rw [Run.exec_append, Run.exec_cons, Run.exec_nil] at hstep
    rcases turn_lastSeen hstep with ⟨source, x, hd, hn, hx, he⟩ | ⟨r, hr, he, _⟩
    · subst hn
      rw [he]
      exact heardAt_hears hd hx hin
    · rw [he]
      exact (ih n r hr).concat t hin

/-- What a scan leaves Alive is not older than either threshold. -/
theorem scan_alive {ord : Table.Order UInt16 NodeInfo} {d : Daemon} {now : SystemTime}
    {m : Members} {n : UInt16} {r' : NodeInfo} (h : (scan ord d now m).lookup n = some r')
    (ha : r'.state = .alive) :
    ∃ r, m.lookup n = some r ∧ age now r < cleanupThreshold ∧ age now r ≤ d.suspectThreshold ∧
      age now r ≤ d.deadThreshold := by
  rw [lookup_scan] at h
  obtain ⟨q, hq, he⟩ := Option.map_eq_some_iff.mp h
  obtain ⟨r, hr, rfl⟩ := Option.map_eq_some_iff.mp hq
  obtain ⟨hr, hage⟩ := Option.filter_eq_some_iff.mp hr
  have hs : (downgrade d now r).state = .alive := by
    rw [← he] at ha
    exact ha
  unfold downgrade at hs
  split at hs
  · cases hs
  · next hdead =>
    split at hs
    · cases hs
    · next hsus =>
      refine ⟨r, hr, by simpa using hage, ?_, Nat.not_lt.mp hdead⟩
      apply Nat.not_lt.mp
      intro hlt
      exact hsus ⟨hlt, hs⟩

/-- An age below the cleanup threshold is a real one. -/
theorem age_young {now : SystemTime} {r : NodeInfo} (h : age now r < cleanupThreshold) :
    r.lastSeen ≤ now ∧ age now r = now.ns - r.lastSeen.ns := by
  have hmax : cleanupThreshold ≤ Duration.max := by decide
  unfold age SystemTime.durationSince at *
  split at h
  · next hle =>
    rw [if_pos hle]
    exact ⟨hle, rfl⟩
  · exact absurd h (Nat.not_lt.mpr hmax)

/-- Alive means recent evidence, for every run and every pair of thresholds. -/
theorem alive_means_heard (ord : Table.Order UInt16 NodeInfo) (d : Daemon) (es : List Event) :
    AliveMeansHeard ord d (turns d es) := by
  intro pre t post now n r' _ hd hsam hr' ha
  have hm : (Run.exec (turn ord d) start (pre ++ [t])).members =
      scan ord d now (Run.exec (turn ord d) start pre).members := by
    rw [Run.exec_append, Run.exec_cons, Run.exec_nil]
    simp only [turn, hd, step, hsam]
  rw [hm] at hr'
  obtain ⟨r, hr, hage, hsus, hdead⟩ := scan_alive hr' ha
  obtain ⟨hle, he⟩ := age_young hage
  rw [he] at hsus hdead
  exact ⟨r.lastSeen, Nat.sub_le_iff_le_add'.mp hsus, hle, Nat.sub_le_iff_le_add'.mp hdead,
    record_heard ord d pre n r hr⟩

end Hivebus.Proofs.Evidence
