import Mathlib.Tactic.FinCases
import Hivebus.Proofs.Forgetting
import Hivebus.Proofs.Suspicion

namespace Hivebus.Proofs.Heartbeats
open Lib Proto Bus ControlView Discovery Forgetting Provenance Suspicion

variable {ι : Type}

theorem heartbeat_sent (d : Daemon) (ms : UInt64) (seq : UInt8) :
    ∃ data, (heartbeatRound d ms seq).2 = some data ∧ data.length ≤ maxFrame ∧
      decodeFrame data = some ⟨d.selfId, .heartbeat ⟨d.incarnation, ms⟩⟩ := by
  have hfits : ¬ ((FrameHeader.new .heartbeat seq d.selfId).toBytes ++
      HeartbeatPayload.codec.encode ⟨d.incarnation, ms⟩).length > maxFrame := by
    have hlen : ((FrameHeader.new .heartbeat seq d.selfId).toBytes ++
        HeartbeatPayload.codec.encode ⟨d.incarnation, ms⟩).length =
          4 + (varintSize d.incarnation.toNat + varintSize ms.toNat) := by
      rw [List.length_append, Codec.length_encode]
      rfl
    have hinc := varintSize_le d.incarnation.toNat
    have hms := varintSize_le ms.toNat
    have hmax : maxFrame = 508 := rfl
    omega
  have he : encodeMessage seq d.selfId (.heartbeat ⟨d.incarnation, ms⟩) =
      .ok ((FrameHeader.new .heartbeat seq d.selfId).toBytes ++
        HeartbeatPayload.codec.encode ⟨d.incarnation, ms⟩) := if_neg hfits
  refine ⟨_, congrArg Except.toOption he, Nat.not_lt.mp hfits, decodeFrame_encodeMessage he⟩

/-- What a datagram says in gossip. -/
def gossipOf (dg : Datagram) : List GossipEntry :=
  match decodeFrame dg.data with
  | some ⟨_, .gossip pl⟩ => pl.entries
  | _ => []

theorem alive_gossipOf {w : Network ι} {n : UInt16} (h : AliveEverywhere n w) {dg : Datagram}
    (hdg : dg ∈ w.sent) {e : GossipEntry} (he : e ∈ gossipOf dg) (hn : e.nodeId = n) :
    e.state = .alive := by
  unfold gossipOf at he
  split at he
  · next pl hf => exact h.gossip dg hdg _ pl hf rfl e he hn
  · cases he

/-- How the daemon a machine runs after a step came to be what it is. -/
inductive Moved (hosts : ι → Host) (w : Network ι) (e : Happening ι) (i : ι) : Process → Prop where
  | booted (d : Daemon) (boots : e.doing = .boot i) (settled : main (hosts i) e.now = .ok d) :
    Moved hosts w e i (.start d)
  | kept (p q : Process) (ran : w.procs i = some p) (daemon : q.daemon = p.daemon)
      (state : q.state = p.state) (stays : e.doing ≠ .boot i ∧ e.doing ≠ .halt i) :
    Moved hosts w e i q
  | sampled (p : Process) (ran : w.procs i = some p) (samples : e.doing = .sample i) :
    Moved hosts w e i (p.step Table.Order.newest ⟨e.now, .sample⟩)
  | scanned (p : Process) (ord : Table.Order UInt16 NodeInfo) (ran : w.procs i = some p)
      (scans : e.doing = .scan i ord) : Moved hosts w e i (p.step ord ⟨e.now, .scan⟩)
  | received (p : Process) (ix : Nat) (dg : Datagram) (ran : w.procs i = some p)
      (delivers : e.doing = .deliver ix i) (sent : w.sent[ix]? = some dg) :
    Moved hosts w e i (p.recv e.now dg)

/-- A daemon that runs after a step in which its machine is not started ran before it. -/
theorem Moved.ran {hosts : ι → Host} {w : Network ι} {e : Happening ι} {i : ι} {q : Process}
    (h : Moved hosts w e i q)
    (hboot : e.doing ≠ .boot i) : (w.procs i).isSome ∧ e.doing ≠ .halt i := by
  cases h with
  | booted d boots settled => exact absurd boots hboot
  | kept p _ ran daemon state stays => exact ⟨by rw [ran]; rfl, stays.2⟩
  | sampled p ran samples => exact ⟨by rw [ran]; rfl, by simp [samples]⟩
  | scanned p ord ran scans => exact ⟨by rw [ran]; rfl, by simp [scans]⟩
  | received p ix dg ran delivers sent => exact ⟨by rw [ran]; rfl, by simp [delivers]⟩

variable [DecidableEq ι]

/-- The cluster in front of an event of a run. -/
def Before (hosts : ι → Host) (es : List (Happening ι)) (k : Nat) : Network ι :=
  Network.run hosts (es.take k)

def Up (hosts : ι → Host) (es : List (Happening ι)) (k : Nat) (i : ι) : Prop :=
  ((Before hosts es k).procs i).isSome

/-- The machine is up in front of one event and goes on, never restarted, until another. -/
structure Through (hosts : ι → Host) (es : List (Happening ι)) (k l : Nat) (i : ι) : Prop where
  up : Up hosts es k i
  stays : ∀ x : Fin es.length, k ≤ x.val → x.val < l →
    (es.get x).doing ≠ .boot i ∧ (es.get x).doing ≠ .halt i

/-- A run in which every machine is on time for as long as it is up: one clock, a heartbeat
every `period` at the latest, and each heartbeat at each other machine within `delay`.
Machines may stop and start at any time. -/
structure Steady (hosts : ι → Host) (es : List (Happening ι)) (period delay : Duration) :
    Prop where
  clock : es.Pairwise (fun e f => e.now ≤ f.now)
  beats : ∀ (k l : Fin es.length) (i : ι), k < l → Through hosts es k l i →
    (es.get k).now.ns + period < (es.get l).now.ns →
    ∃ m : Fin es.length, k ≤ m ∧ m < l ∧ (es.get m).doing = .heartbeat i ∧
      (es.get m).now.ns ≤ (es.get k).now.ns + period
  carried : ∀ (k l : Fin es.length) (j i : ι), k < l → i ≠ j → (es.get k).doing = .heartbeat j →
    Up hosts es k j → Through hosts es k l i → (es.get k).now.ns + delay < (es.get l).now.ns →
    ∃ (m : Fin es.length) (ix : Nat), k < m ∧ m < l ∧ (es.get m).doing = .deliver ix i ∧
      (es.get m).now.ns ≤ (es.get k).now.ns + delay ∧
      (Before hosts es m).sent[ix]? = (Before hosts es (k + 1)).sent.head?

/-- Every daemon `main` may start has the patience to wait this long for a sign of life. -/
def Patient (hosts : ι → Host) (bound : Duration) : Prop :=
  ∀ i now d, main (hosts i) now = .ok d → bound ≤ d.suspectThreshold ∧ bound ≤ d.deadThreshold

/-- If this step is a scan, it finds no record that is younger than the time it sampled. -/
def Prompt (w : Network ι) (e : Happening ι) : Prop :=
  ∀ i ord p t k r, e.doing = .scan i ord → w.procs i = some p → p.state.sampled = some t →
    p.state.members.lookup k = some r → r.lastSeen ≤ t

/-- No daemon of this id that was ever up has stopped or been restarted. -/
def Stands (hosts : ι → Host) (es : List (Happening ι)) (n : UInt16) : Prop :=
  ∀ (k : Fin es.length) i p, (Before hosts es k).procs i = some p → p.daemon.selfId = n →
    Through hosts es k es.length i

variable {hosts : ι → Host} {es : List (Happening ι)} {period delay : Duration}

theorem up_of_procs {k : Nat} {i : ι} {p : Process} (h : (Before hosts es k).procs i = some p) :
    Up hosts es k i := by
  rw [Up, h]
  rfl

theorem before_succ (hosts : ι → Host) (k : Fin es.length) :
    Before hosts es (k + 1) = Network.step hosts (Before hosts es k) (es.get k) := by
  have ht : es.take (k + 1) = es.take k ++ [(es.get k)] := List.take_succ_eq_append_getElem k.isLt
  rw [Before, ht, Network.run, Run.exec_append, Run.exec_cons, Run.exec_nil]
  rfl

theorem step_moved {w : Network ι} {e : Happening ι} {i : ι} {q : Process}
    (hq : (Network.step hosts w e).procs i = some q) : Moved hosts w e i q := by
  have same : w.procs i = some q → e.doing ≠ .boot i → e.doing ≠ .halt i → Moved hosts w e i q :=
    fun h hboot hhalt => .kept q q h rfl rfl ⟨hboot, hhalt⟩
  have replaced : ∀ (j : ι) (r : Option Process), Function.update w.procs j r i = some q →
      j = i ∧ r = some q ∨ j ≠ i ∧ w.procs i = some q := by
    intro j r h
    by_cases hj : j = i
    · subst hj
      rw [Function.update_self] at h
      exact .inl ⟨rfl, h⟩
    · rw [Function.update_of_ne (fun h => hj h.symm)] at h
      exact .inr ⟨hj, h⟩
  have stepped : ∀ (j : ι) (f : Process → Process),
      (w.onProcess j f).procs i = some q →
      (∃ p, j = i ∧ w.procs i = some p ∧ q = f p) ∨ w.procs i = some q := by
    intro j f hf
    rcases replaced j _ hf with ⟨rfl, h⟩ | ⟨_, h⟩
    · obtain ⟨p, hp, rfl⟩ := Option.map_eq_some_iff.mp h
      exact .inl ⟨p, rfl, hp, rfl⟩
    · exact .inr h
  unfold Network.step at hq
  cases hd : e.doing with
  | boot j =>
    simp only [hd, Network.boot] at hq
    cases hm : main (hosts j) e.now with
    | ok d =>
      simp only [hm, Network.send] at hq
      rcases replaced j _ hq with ⟨rfl, h⟩ | ⟨hj, h⟩
      · cases h
        exact .booted d hd hm
      · exact same h (by simp [hd, hj]) (by simp [hd])
    | error msg =>
      simp only [hm] at hq
      rcases replaced j _ hq with ⟨rfl, h⟩ | ⟨hj, h⟩
      · cases h
      · exact same h (by simp [hd, hj]) (by simp [hd])
  | halt j =>
    simp only [hd] at hq
    rcases replaced j _ hq with ⟨rfl, h⟩ | ⟨hj, h⟩
    · cases h
    · exact same h (by simp [hd]) (by simp [hd, hj])
  | heartbeat j =>
    cases hj : w.procs j with
    | none =>
      simp only [hd, hj] at hq
      exact same hq (by simp [hd]) (by simp [hd])
    | some p =>
      simp only [hd, hj, Network.send] at hq
      rcases stepped j _ hq with ⟨p', rfl, hp', rfl⟩ | h
      · exact .kept p' _ hp' rfl rfl (by simp [hd])
      · exact same h (by simp [hd]) (by simp [hd])
  | gossip j ord ms =>
    cases hj : w.procs j with
    | none =>
      simp only [hd, hj] at hq
      exact same hq (by simp [hd]) (by simp [hd])
    | some p =>
      simp only [hd, hj, Network.send] at hq
      rcases stepped j _ hq with ⟨p', rfl, hp', rfl⟩ | h
      · exact .kept p' _ hp' rfl rfl (by simp [hd])
      · exact same h (by simp [hd]) (by simp [hd])
  | sample j =>
    simp only [hd] at hq
    rcases stepped j _ hq with ⟨p, rfl, hp, rfl⟩ | h
    · exact .sampled p hp hd
    · exact same h (by simp [hd]) (by simp [hd])
  | scan j ord =>
    simp only [hd] at hq
    rcases stepped j _ hq with ⟨p, rfl, hp, rfl⟩ | h
    · exact .scanned p ord hp hd
    · exact same h (by simp [hd]) (by simp [hd])
  | deliver ix j =>
    cases hg : w.sent[ix]? with
    | none =>
      simp only [hd, hg] at hq
      exact same hq (by simp [hd]) (by simp [hd])
    | some dg =>
      simp only [hd, hg] at hq
      rcases stepped j _ hq with ⟨p, rfl, hp, rfl⟩ | h
      · exact .received p ix dg hp hd hg
      · exact same h (by simp [hd]) (by simp [hd])

/-- A running daemon goes on through a step that neither stops nor replaces it. -/
theorem step_stays (hosts : ι → Host) {w : Network ι} {e : Happening ι} {i : ι} {p : Process}
    (hp : w.procs i = some p) (hboot : e.doing ≠ .boot i) (hhalt : e.doing ≠ .halt i) :
    ∃ q, (Network.step hosts w e).procs i = some q ∧ q.daemon = p.daemon := by
  have other : ∀ (j : ι) (q : Option Process), j ≠ i →
      Function.update w.procs j q i = some p := by
    intro j q hj
    rw [Function.update_of_ne hj.symm, hp]
  have own : ∀ (j : ι) (f : Process → Process), (∀ q, (f q).daemon = q.daemon) →
      ∃ q, (w.onProcess j f).procs i = some q ∧ q.daemon = p.daemon := by
    intro j f hf
    by_cases hj : j = i
    · subst hj
      exact ⟨f p, by simp [Network.onProcess, hp], hf p⟩
    · exact ⟨p, other j _ hj, rfl⟩
  obtain ⟨now, doing⟩ := e
  cases doing with
  | boot j =>
    have hj : j ≠ i := fun h => hboot (h ▸ rfl)
    simp only [Network.step, Network.boot]
    split
    · exact ⟨p, other j _ hj, rfl⟩
    · exact ⟨p, other j _ hj, rfl⟩
  | halt j => exact ⟨p, other j _ (fun h => hhalt (h ▸ rfl)), rfl⟩
  | heartbeat j =>
    simp only [Network.step]
    split
    · exact ⟨p, hp, rfl⟩
    · exact own j _ (fun _ => rfl)
  | gossip j ord ms =>
    simp only [Network.step]
    split
    · exact ⟨p, hp, rfl⟩
    · exact own j _ (fun _ => rfl)
  | sample j => exact own j _ (fun _ => rfl)
  | scan j ord => exact own j _ (fun _ => rfl)
  | deliver ix j =>
    simp only [Network.step]
    split
    · exact ⟨p, hp, rfl⟩
    · exact own j _ (fun _ => rfl)

/-- What was taken in of a node in a step that gave its record a new stamp: a frame of its
own, or gossip when there was no record. -/
structure Dated (w : Network ι) (e : Happening ι) (i : ι) (n : UInt16) (p : Process) (ix : Nat)
    (dg : Datagram) (f : Frame) : Prop where
  ran : w.procs i = some p
  delivers : e.doing = .deliver ix i
  sent : w.sent[ix]? = some dg
  frame : decodeFrame (dg.data.take recvBuffer) = some f
  why : f.nodeId = n ∨ n ∉ p.state.members

/-- A stamp in a table was there before the step, or a datagram came in with it. -/
theorem step_record {w : Network ι} {e : Happening ι} {i : ι} {q : Process} {n : UInt16}
    {r' : NodeInfo} (hq : (Network.step hosts w e).procs i = some q)
    (hr : q.state.members.lookup n = some r') :
    (∃ p r, w.procs i = some p ∧ p.state.members.lookup n = some r ∧ r'.lastSeen = r.lastSeen ∧
      e.doing ≠ .boot i ∧ e.doing ≠ .halt i) ∨
      r'.lastSeen = e.now ∧ ∃ p ix dg f, Dated w e i n p ix dg f := by
  cases step_moved hq with
  | booted d boots settled => cases hr
  | kept p _ ran daemon state stays =>
    rw [state] at hr
    exact .inl ⟨p, r', ran, hr, rfl, stays⟩
  | sampled p ran samples =>
    have hm := turn_sample Table.Order.newest p.daemon p.state e.now
    simp only [turn] at hm
    rw [Process.step, hm] at hr
    exact .inl ⟨p, r', ran, hr, rfl, by simp [samples]⟩
  | scanned p ord ran scans =>
    have stays : e.doing ≠ .boot i ∧ e.doing ≠ .halt i := by simp [scans]
    cases ht : p.state.sampled with
    | none =>
      simp only [Process.step, Bus.step, ht] at hr
      exact .inl ⟨p, r', ran, hr, rfl, stays⟩
    | some t =>
      simp only [Process.step, Bus.step, ht] at hr
      obtain ⟨r, st, b, hold, _, rfl⟩ := lookup_scan_some hr
      exact .inl ⟨p, r, ran, hold, rfl, stays⟩
  | received p ix dg ran delivers sent =>
    have stays : e.doing ≠ .boot i ∧ e.doing ≠ .halt i := by simp [delivers]
    simp only [Process.recv, take, Bus.listen] at hr
    split at hr
    · next f hf =>
      rcases handleFrame_lastSeen hr with ⟨r, hr, he⟩ | ⟨he, hwhy⟩
      · exact .inl ⟨p, r, ran, hr, he, stays⟩
      · refine .inr ⟨he, p, ix, dg, f, ran, delivers, sent, hf, ?_⟩
        rcases hwhy with ⟨hown, _⟩ | ⟨_, _, _, _, _, hnew⟩
        · exact .inl hown
        · exact .inr hnew
    · exact .inl ⟨p, r', ran, hr, rfl, stays⟩

/-- A scan that waits has sampled the clock in this step or before it. -/
theorem step_sampled {w : Network ι} {e : Happening ι} {i : ι} {q : Process} {t : SystemTime}
    (hq : (Network.step hosts w e).procs i = some q) (ht : q.state.sampled = some t) :
    (∃ p, w.procs i = some p ∧ p.state.sampled = some t) ∨ t = e.now := by
  cases step_moved hq with
  | booted d boots settled => cases ht
  | kept p _ ran daemon state stays =>
    rw [state] at ht
    exact .inl ⟨p, ran, ht⟩
  | sampled p ran samples =>
    cases hs : p.state.sampled with
    | none =>
      simp only [Process.step, Bus.step, hs] at ht
      cases ht
      exact .inr rfl
    | some s =>
      simp only [Process.step, Bus.step, hs] at ht
      cases ht
      exact .inl ⟨p, ran, hs⟩
  | scanned p ord ran scans =>
    cases hs : p.state.sampled with
    | none =>
      simp only [Process.step, Bus.step, hs] at ht
      cases ht
    | some s =>
      simp only [Process.step, Bus.step, hs] at ht
      cases ht
  | received p ix dg ran delivers sent => exact .inl ⟨p, ran, ht⟩

theorem handleFrame_keeps {selfId : UInt16} {now : SystemTime} {source : SocketAddr} {f : Frame}
    {m : Members} {n : UInt16} (h : n ∈ m) : n ∈ handleFrame selfId now source f m := by
  rw [handleFrame_eq_foldl]
  generalize newsOf selfId f = xs
  induction xs generalizing m with
  | nil => exact h
  | cons x xs ih =>
    apply ih
    obtain ⟨r, hr⟩ := Option.isSome_iff_exists.mp (AList.lookup_isSome.mpr h)
    rw [← AList.lookup_isSome, lookup_apply, hr]
    split
    · cases x <;> rfl
    · rfl

/-- What stays in a table through a step: all but what a scan takes for old. -/
theorem step_keeps {w : Network ι} {e : Happening ι} {i : ι} {p q : Process} {n : UInt16}
    (hp : w.procs i = some p) (hn : n ∈ p.state.members) (hboot : e.doing ≠ .boot i)
    (hscan : ∀ ord t r, e.doing = .scan i ord → p.state.sampled = some t →
      p.state.members.lookup n = some r → age t r < cleanupThreshold)
    (hq : (Network.step hosts w e).procs i = some q) : n ∈ q.state.members := by
  have one : ∀ p', w.procs i = some p' → p' = p :=
    fun p' h => Option.some.inj (h.symm.trans hp)
  cases step_moved hq with
  | booted d boots settled => exact absurd boots hboot
  | kept p' _ ran daemon state stays =>
    cases one p' ran
    rw [state]
    exact hn
  | sampled p' ran samples =>
    cases one p' ran
    have hm := turn_sample Table.Order.newest p.daemon p.state e.now
    simp only [turn] at hm
    rw [Process.step, hm]
    exact hn
  | scanned p' ord ran scans =>
    cases one p' ran
    cases ht : p.state.sampled with
    | none =>
      simp only [Process.step, Bus.step, ht]
      exact hn
    | some t =>
      simp only [Process.step, Bus.step, ht]
      obtain ⟨r, hr⟩ := Option.isSome_iff_exists.mp (AList.lookup_isSome.mpr hn)
      by_contra hgone
      have hold := lookup_scan_none.mp (AList.lookup_eq_none.mpr hgone) r hr
      exact absurd (hscan ord t r scans ht hr) (Nat.not_lt.mpr hold)
  | received p' ix dg ran delivers sent =>
    cases one p' ran
    simp only [Process.recv, take, Bus.listen]
    split
    · exact handleFrame_keeps hn
    · exact hn

/-- A heartbeat that comes in on time stamps the record of its node. -/
theorem step_hears {w : Network ι} {e : Happening ι} {i : ι} {p q : Process} {ix : Nat}
    {dg : Datagram} {n : UInt16} {pl : HeartbeatPayload} (hp : w.procs i = some p)
    (hd : e.doing = .deliver ix i) (hsent : w.sent[ix]? = some dg)
    (hfits : dg.data.length ≤ maxFrame)
    (hf : decodeFrame dg.data = some ⟨n, .heartbeat pl⟩) (hn : n ≠ p.daemon.selfId)
    (hq : (Network.step hosts w e).procs i = some q) :
    ∃ r, q.state.members.lookup n = some r ∧ r.lastSeen = e.now := by
  have hcut : dg.data.take recvBuffer = dg.data :=
    List.take_of_length_le (Nat.le_trans hfits (by decide))
  have hstep : q = p.recv e.now dg := by
    unfold Network.step at hq
    simp only [hd, hsent, Network.onProcess, Function.update_self, hp, Option.map_some,
      Option.some.injEq] at hq
    exact hq.symm
  subst hstep
  have hr : (p.recv e.now dg).state.members.lookup n = some (refresh e.now pl
      ((p.state.members.lookup n).getD (heartbeatRecord e.now dg.source n pl))) := by
    simp only [Process.recv, take, Bus.listen, hcut, hf, handleFrame, if_neg hn, onHeartbeat,
      Table.lookup_upsert, ↓reduceIte]
  exact ⟨_, hr, rfl⟩

theorem Steady.clock_le (h : Steady hosts es period delay) {k l : Fin es.length} (hkl : k ≤ l) :
    (es.get k).now.ns ≤ (es.get l).now.ns := by
  rcases Nat.lt_or_eq_of_le hkl with hlt | heq
  · exact List.pairwise_iff_getElem.mp h.clock k l k.isLt l.isLt hlt
  · rw [Fin.ext heq]

theorem Steady.lt_of_now_lt (h : Steady hosts es period delay) {k l : Fin es.length}
    (hlt : (es.get k).now.ns < (es.get l).now.ns) : k < l := by
  by_contra hle
  exact absurd (h.clock_le (Fin.not_lt.mp hle)) (Nat.not_le.mpr hlt)

/-- The daemon of a machine that goes on is the one it runs all the time. -/
theorem Through.running {i : ι} {k l : Nat} (h : Through hosts es k l i) {p : Process}
    (hp : (Before hosts es k).procs i = some p) {c : Nat} (hkc : k ≤ c) (hcl : c ≤ l)
    (hc : c ≤ es.length) : ∃ q, (Before hosts es c).procs i = some q ∧ q.daemon = p.daemon := by
  induction c, hkc using Nat.le_induction with
  | base => exact ⟨p, hp, rfl⟩
  | succ c hkc ih =>
    obtain ⟨q, hq, hd⟩ := ih (Nat.le_of_succ_le hcl) (Nat.le_of_succ_le hc)
    obtain ⟨hboot, hhalt⟩ := h.stays ⟨c, hc⟩ hkc hcl
    obtain ⟨q', hq', hd'⟩ := step_stays hosts hq hboot hhalt
    rw [before_succ hosts ⟨c, hc⟩]
    exact ⟨q', hq', hd'.trans hd⟩

theorem Through.runs {i : ι} {k l : Nat} (h : Through hosts es k l i) {c : Nat} (hkc : k ≤ c)
    (hcl : c ≤ l) (hc : c ≤ es.length) : ∃ q, (Before hosts es c).procs i = some q := by
  obtain ⟨p, hp⟩ := Option.isSome_iff_exists.mp h.up
  obtain ⟨q, hq, _⟩ := h.running hp hkc hcl hc
  exact ⟨q, hq⟩

/-- A daemon that runs at two points while its machine goes on is the same daemon. -/
theorem Through.same {i : ι} {k l : Nat} (h : Through hosts es k l i) {c : Nat} {p q : Process}
    (hp : (Before hosts es k).procs i = some p) (hq : (Before hosts es c).procs i = some q)
    (hkc : k ≤ c) (hcl : c ≤ l) (hc : c ≤ es.length) : q.daemon = p.daemon := by
  obtain ⟨q', hq', hd⟩ := h.running hp hkc hcl hc
  rw [hq] at hq'
  cases hq'
  exact hd

theorem Through.sub {i : ι} {k l : Nat} (h : Through hosts es k l i) {k' l' : Nat} (hk : k ≤ k')
    (hl : l' ≤ l) (hkl : k' ≤ l) (hlen : k' ≤ es.length) : Through hosts es k' l' i := by
  obtain ⟨q, hq⟩ := h.runs hk hkl hlen
  exact ⟨up_of_procs hq,
    fun x hx hxl => h.stays x (Nat.le_trans hk hx) (Nat.lt_of_lt_of_le hxl hl)⟩

theorem Through.succ {i : ι} {k : Nat} {l : Fin es.length} (h : Through hosts es k l i)
    (he : (es.get l).doing ≠ .boot i ∧ (es.get l).doing ≠ .halt i) :
    Through hosts es k (l + 1) i := by
  refine ⟨h.up, ?_⟩
  intro x hx hxl
  rcases Nat.lt_succ_iff_lt_or_eq.mp hxl with hlt | heq
  · exact h.stays x hx hlt
  · cases Fin.ext heq
    exact he

theorem Stands.through {n : UInt16} (h : Stands hosts es n) {k : Nat} (hk : k ≤ es.length) {i : ι}
    {p : Process} (hp : (Before hosts es k).procs i = some p) (hid : p.daemon.selfId = n) :
    Through hosts es k es.length i := by
  rcases Nat.lt_or_eq_of_le hk with hlt | rfl
  · exact h ⟨k, hlt⟩ i p hp hid
  · refine ⟨up_of_procs hp, ?_⟩
    intro x hx hxl
    exact absurd hxl (Nat.not_lt.mpr hx)

/-- A machine that goes on never stays without a heartbeat of another one that does for
longer than a period and a delay. -/
theorem Steady.heard_lately (h : Steady hosts es period delay) {i j : ι} (hij : i ≠ j)
    {k l : Fin es.length} (hkl : k < l) (hi : Through hosts es k l i) (hj : Through hosts es k l j)
    (hlate : (es.get k).now.ns + period + delay < (es.get l).now.ns) :
    ∃ (m : Fin es.length) (ix : Nat) (b : Fin es.length), k ≤ b ∧ b < m ∧ m < l ∧
      (es.get l).now.ns ≤ (es.get m).now.ns + period + delay ∧ (es.get b).doing = .heartbeat j ∧
      (es.get m).doing = .deliver ix i ∧
      (Before hosts es m).sent[ix]? = (Before hosts es (b + 1)).sent.head? := by
  -- on the time left until the last of the deliveries
  induction hgap : l.val - k.val using Nat.strong_induction_on generalizing k with
  | _ gap ih =>
    obtain ⟨b, hkb, hbl, hbeat, hbnow⟩ := h.beats k l j hkl hj (by omega)
    have hbl' : b.val ≤ l.val := Nat.le_of_lt hbl
    have hib := hi.sub hkb (Nat.le_refl _) hbl' (Nat.le_of_lt b.isLt)
    have hjb := (hj.sub hkb (Nat.le_refl _) hbl' (Nat.le_of_lt b.isLt)).up
    obtain ⟨m, ix, hbm, hml, hdel, hmnow, hsent⟩ :=
      h.carried b l j i hbl hij hbeat hjb hib (by omega)
    by_cases hdone : (es.get l).now.ns ≤ (es.get m).now.ns + period + delay
    · exact ⟨m, ix, b, hkb, hbm, hml, hdone, hbeat, hdel, hsent⟩
    · have hkm : k.val < m.val := Nat.lt_of_le_of_lt hkb hbm
      have him := hi.sub (Nat.le_of_lt hkm) (Nat.le_refl _) (Nat.le_of_lt hml) (Nat.le_of_lt m.isLt)
      have hjm := hj.sub (Nat.le_of_lt hkm) (Nat.le_refl _) (Nat.le_of_lt hml) (Nat.le_of_lt m.isLt)
      obtain ⟨m', ix', b', hmb, rest⟩ := ih (l.val - m.val) (by omega) hml him hjm (by omega) rfl
      exact ⟨m', ix', b', Nat.le_trans (Nat.le_of_lt hkm) hmb, rest⟩

/-- What comes of a heartbeat: right after it is in, its node is on record with the time. -/
theorem heartbeat_heard {i j : ι} {b m : Fin es.length} {ix : Nat}
    {p q : Process} (hbeat : (es.get b).doing = .heartbeat j)
    (hdel : (es.get m).doing = .deliver ix i)
    (hsent : (Before hosts es m).sent[ix]? = (Before hosts es (b + 1)).sent.head?)
    (hp : (Before hosts es m).procs i = some p) (hq : (Before hosts es b).procs j = some q)
    (hne : q.daemon.selfId ≠ p.daemon.selfId) :
    ∃ p' r, (Before hosts es (m + 1)).procs i = some p' ∧
      p'.state.members.lookup q.daemon.selfId = some r ∧ r.lastSeen = (es.get m).now := by
  obtain ⟨data, hdata, hfits, hf⟩ := heartbeat_sent q.daemon (epochMs (es.get b).now) q.heartbeatSeq
  have hhead : (Before hosts es (b + 1)).sent.head? = some ⟨(hosts j).source, data⟩ := by
    rw [before_succ, Network.step]
    simp only [hbeat, hq, Network.send, Network.onProcess, hdata, Option.map_some,
      Option.toList_some, List.singleton_append, List.head?_cons]
  obtain ⟨p', hp', _⟩ :=
    step_stays hosts hp (e := (es.get m)) (by rw [hdel]; simp) (by rw [hdel]; simp)
  rw [hhead] at hsent
  obtain ⟨r, hr, hnow⟩ := step_hears hp hdel hsent hfits hf hne hp'
  rw [before_succ]
  exact ⟨p', r, hp', hr, hnow⟩

/-- A machine that goes on has the heartbeat of another one on record with a time that is
no older than a period and a delay. -/
theorem Steady.hears (h : Steady hosts es period delay) {i j : ι} {k l : Fin es.length}
    (hkl : k < l) (hi : Through hosts es k l i) (hj : Through hosts es k l j)
    (hlate : (es.get k).now.ns + period + delay < (es.get l).now.ns) {p q : Process}
    (hp : (Before hosts es k).procs i = some p) (hq : (Before hosts es k).procs j = some q)
    (hne : q.daemon.selfId ≠ p.daemon.selfId) :
    ∃ (m : Fin es.length) (p' : Process) (r : NodeInfo), k < m ∧ m < l ∧
      (es.get l).now.ns ≤ (es.get m).now.ns + period + delay ∧
      (Before hosts es (m + 1)).procs i = some p' ∧
      p'.state.members.lookup q.daemon.selfId = some r ∧ r.lastSeen = (es.get m).now := by
  have hij : i ≠ j := by
    intro he
    subst he
    rw [hp] at hq
    cases hq
    exact hne rfl
  obtain ⟨m, ix, b, hkb, hbm, hml, hm, hbeat, hdel, hsent⟩ := h.heard_lately hij hkl hi hj hlate
  have hkm : k.val < m.val := Nat.lt_of_le_of_lt hkb hbm
  have hbl : b.val < l.val := Nat.lt_trans hbm hml
  obtain ⟨pm, hpm, hpd⟩ := hi.running hp (Nat.le_of_lt hkm) (Nat.le_of_lt hml) (Nat.le_of_lt m.isLt)
  obtain ⟨qb, hqb, hqd⟩ := hj.running hq hkb (Nat.le_of_lt hbl) (Nat.le_of_lt b.isLt)
  obtain ⟨p', r, hp', hr, hstamp⟩ :=
    heartbeat_heard hbeat hdel hsent hpm hqb (by rw [hqd, hpd]; exact hne)
  rw [hqd] at hr
  exact ⟨m, p', r, hkm, hml, hm, hp', hr, hstamp⟩

theorem before_sourced (hosts : ι → Host) (es : List (Happening ι)) {k : Nat} {i : ι} {p : Process}
    (hp : (Before hosts es k).procs i = some p) :
    (sourcedCreed hosts (Born hosts (es.take k))).Keeps p :=
  (run_sourced hosts (es.take k)).procs i p hp

/-- Where a daemon that has been started was started. -/
theorem born_started {k : Nat} (hk : k ≤ es.length) {d : Daemon} (hb : Born hosts (es.take k) d) :
    ∃ (c : Fin es.length) (j : ι), c.val < k ∧ (es.get c).doing = .boot j ∧
      (Before hosts es (c + 1)).procs j = some (.start d) := by
  obtain ⟨j, now, hmem, hd⟩ := hb
  obtain ⟨c, hc, he⟩ := List.mem_take_iff_getElem.mp hmem
  have hck : c < k := Nat.lt_of_lt_of_le hc (Nat.min_le_left _ _)
  have hce : es.get ⟨c, Nat.lt_of_lt_of_le hck hk⟩ = ⟨now, .boot j⟩ := he
  refine ⟨⟨c, Nat.lt_of_lt_of_le hck hk⟩, j, hck, by rw [hce], ?_⟩
  rw [before_succ, hce]
  simp only [Network.step, Network.boot, hd, Network.send, Function.update_self]

/-- Where a stamp comes from: a datagram that was taken in then, and the machine has gone on
since. -/
theorem stamped {i : ι} {k : Nat} (hk : k ≤ es.length) {p : Process} {n : UInt16} {r : NodeInfo}
    (hp : (Before hosts es k).procs i = some p) (hr : p.state.members.lookup n = some r) :
    ∃ b : Fin es.length, b.val < k ∧ (es.get b).now = r.lastSeen ∧ Through hosts es b k i ∧
      (∃ q ix dg f, Dated (Before hosts es b) (es.get b) i n q ix dg f) ∧
      ∃ q r₀, (Before hosts es (b + 1)).procs i = some q ∧ q.state.members.lookup n = some r₀ := by
  induction k generalizing p r with
  | zero => cases hp
  | succ k ih =>
    have hstep := hp
    rw [before_succ hosts ⟨k, hk⟩] at hstep
    rcases step_record hstep hr with ⟨p', r', hp', hr', he, stays⟩ | ⟨he, p', ix, dg, f, hdated⟩
    · obtain ⟨b, hb, hnow, hthrough, rest⟩ := ih (Nat.le_of_succ_le hk) hp' hr'
      exact ⟨b, Nat.lt_succ_of_lt hb, hnow.trans he.symm, hthrough.succ (l := ⟨k, hk⟩) stays, rest⟩
    · refine ⟨⟨k, hk⟩, Nat.lt_succ_self k, he.symm, ⟨up_of_procs hdated.ran, ?_⟩,
        ⟨p', ix, dg, f, hdated⟩, p, r, hp, hr⟩
      intro x hx hxl
      cases Fin.ext (a := x) (b := ⟨k, hk⟩) (Nat.le_antisymm (Nat.lt_succ_iff.mp hxl) hx)
      rw [hdated.delivers]
      simp

/-- The time a waiting scan has sampled was on the clock before. -/
theorem sampled_before {i : ι} {k : Nat} (hk : k ≤ es.length) {p : Process} {t : SystemTime}
    (hp : (Before hosts es k).procs i = some p) (ht : p.state.sampled = some t) :
    ∃ a : Fin es.length, a.val < k ∧ (es.get a).now = t := by
  induction k generalizing p with
  | zero => cases hp
  | succ k ih =>
    rw [before_succ hosts ⟨k, hk⟩] at hp
    rcases step_sampled hp ht with ⟨p', hp', ht'⟩ | he
    · obtain ⟨a, ha, hnow⟩ := ih (Nat.le_of_succ_le hk) hp' ht'
      exact ⟨a, Nat.lt_succ_of_lt ha, hnow⟩
    · exact ⟨⟨k, hk⟩, Nat.lt_succ_self k, he.symm⟩

/-- A record is never stamped with an earlier time than it once was. -/
theorem Steady.stamp_grows (h : Steady hosts es period delay) {i : ι} {m : Fin es.length}
    {p : Process} {n : UInt16} {r : NodeInfo} (hp : (Before hosts es (m + 1)).procs i = some p)
    (hr : p.state.members.lookup n = some r) (hm : r.lastSeen = (es.get m).now) {l : Nat}
    (hml : m < l) (hl : l ≤ es.length) {p' : Process} {r' : NodeInfo}
    (hp' : (Before hosts es l).procs i = some p') (hr' : p'.state.members.lookup n = some r') :
    (es.get m).now.ns ≤ r'.lastSeen.ns := by
  induction l, hml using Nat.le_induction generalizing p' r' with
  | base =>
    rw [hp] at hp'
    cases hp'
    rw [hr] at hr'
    cases hr'
    rw [hm]
  | succ l hml ih =>
    rw [before_succ hosts ⟨l, hl⟩] at hp'
    rcases step_record hp' hr' with ⟨q, s, hq, hs, he, _⟩ | ⟨he, _⟩
    · rw [he]
      exact ih (Nat.le_of_succ_le hl) hq hs
    · rw [he]
      exact h.clock_le (k := m) (l := ⟨l, hl⟩) (Nat.le_of_lt hml)

/-- No scan samples a time that is later than a stamp of a node that stands by more than a
period and a delay. -/
theorem Steady.timely (h : Steady hosts es period delay) {l : Fin es.length} {i : ι} {p : Process}
    {t : SystemTime} {n : UInt16} {r : NodeInfo} (hn : Stands hosts es n)
    (hp : (Before hosts es l).procs i = some p) (ht : p.state.sampled = some t)
    (hr : p.state.members.lookup n = some r) : t.ns ≤ r.lastSeen.ns + period + delay := by
  by_contra hlate
  have hle : l.val ≤ es.length := Nat.le_of_lt l.isLt
  obtain ⟨a, hal, rfl⟩ := sampled_before hle hp ht
  obtain ⟨b, hbl, hb, hi, ⟨_, _, _, _, hdated⟩, q₀, r₀, hq₀, hr₀⟩ := stamped hle hp hr
  have hbs : (es.get b).now.ns = r.lastSeen.ns := congrArg SystemTime.ns hb
  have hba : b < a := h.lt_of_now_lt (by omega)
  -- the machine of the record was up when its stamp came in
  obtain ⟨d, hborn, hid, _⟩ := ((before_sourced hosts es hq₀).records n r₀ hr₀).life
  obtain ⟨s, j, hsb, hboot, hstart⟩ := born_started b.isLt hborn
  have hsb : s.val + 1 ≤ b.val := by
    refine Nat.lt_of_le_of_ne (Nat.lt_succ_iff.mp hsb) ?_
    intro he
    cases Fin.ext he
    rw [hdated.delivers] at hboot
    cases hboot
  have hjend := hn.through s.isLt hstart hid
  have hbe : b.val ≤ es.length := Nat.le_of_lt b.isLt
  obtain ⟨q, hq, hqd⟩ := hjend.running hstart hsb hbe hbe
  have hqid : q.daemon.selfId = n := (congrArg Daemon.selfId hqd).trans hid
  obtain ⟨pb, hpb⟩ := Option.isSome_iff_exists.mp hi.up
  have hpd := hi.same hpb hp (Nat.le_of_lt hbl) (Nat.le_refl _) hle
  have hother : n ≠ p.daemon.selfId := ((before_sourced hosts es hp).wellFormed n r hr).2
  obtain ⟨m, p₁, r₁, hbm, hma, hm, hp₁, hr₁, hstamp⟩ :=
    h.hears hba (hi.sub (Nat.le_refl _) (Nat.le_of_lt hal) (Nat.le_of_lt hbl) hbe)
      (hjend.sub hsb (Nat.le_of_lt a.isLt) hbe hbe) (by omega) hpb hq
      (by rw [hqid, ← hpd]; exact hother)
  rw [hqid] at hr₁
  have hgrown := h.stamp_grows hp₁ hr₁ hstamp (Nat.lt_trans hma hal) hle hp hr
  omega

theorem age_le {t : SystemTime} {r : NodeInfo} {bound : Duration}
    (hage : age t r < cleanupThreshold) (h : t.ns ≤ r.lastSeen.ns + bound) : age t r ≤ bound := by
  have hmax : cleanupThreshold ≤ Duration.max := by decide
  unfold age SystemTime.durationSince at hage ⊢
  split at hage
  · next hle =>
    rw [if_pos hle, Option.getD_some]
    exact Nat.sub_le_iff_le_add'.mpr h
  · exact absurd hage (Nat.not_lt.mpr hmax)

theorem Steady.spared (h : Steady hosts es period delay) (hp : Patient hosts (period + delay))
    {n : UInt16} (hn : Stands hosts es n) :
    Run.Along (Network.step hosts) (Spared n) Network.start es := by
  intro pre e post hes i ord p t r hd hproc ht hr hover
  have hlt : pre.length < es.length := by
    rw [hes, List.length_append, List.length_cons]
    omega
  have hbefore : (Before hosts es pre.length).procs i = some p := by
    rw [Before, hes, List.take_left]
    exact hproc
  obtain ⟨j, now, _, hmain⟩ := (before_sourced hosts es hbefore).born
  obtain ⟨hsuspect, hdead⟩ := hp j now p.daemon hmain
  have htimely := h.timely (l := ⟨pre.length, hlt⟩) hn hbefore ht hr
  have hage : age t r ≤ period + delay := age_le hover.1 (by omega)
  rcases hover.2 with hs | hs
  · exact absurd hs (Nat.not_lt.mpr (Nat.le_trans hage hsuspect))
  · exact absurd hs (Nat.not_lt.mpr (Nat.le_trans hage hdead))

theorem Steady.creed (h : Steady hosts es period delay) (hp : Patient hosts (period + delay))
    {n : UInt16} (hn : Stands hosts es n) :
    Run.Throughout (Network.step hosts) (aliveCreed n).Holds Network.start es :=
  Run.throughout_of_along (fun _ _ hw he => step_aliveCreed hosts hw he) start_holds
    (h.spared hp hn)

/-- A node whose daemon has never stopped is never taken for less than Alive, in a table or
in gossip, however many other machines stop and start, when every heartbeat is on time and no
daemon's patience is shorter than a period and a delay. -/
theorem standing_never_doubted (hosts : ι → Host) (es : List (Happening ι))
    {period delay : Duration}
    (h : Steady hosts es period delay)
    (hp : Patient hosts (period + delay))
    (n : UInt16)
    (hn : Stands hosts es n) :
    Run.Throughout (Network.step hosts) (AliveEverywhere n) Network.start es := by
  intro pre post hes
  exact .of_holds (h.creed hp hn pre post hes)

instance (hosts : ι → Host) (es : List (Happening ι)) (k : Nat) (i : ι) :
    Decidable (Up hosts es k i) := inferInstanceAs (Decidable (_ = true))

instance (i : ι) (d : Doing ι) : Decidable (d = .heartbeat i) :=
  match d with
  | .heartbeat j => decidable_of_iff (j = i) (by simp)
  | .boot _ | .halt _ | .gossip _ _ _ | .sample _ | .scan _ _ | .deliver _ _ => isFalse (by simp)

def moment (ms : UInt16) : SystemTime :=
  ⟨ms.toNat * 10 ^ 6, by have := ms.toNat_lt; omega⟩

/-- Two machines start and hear of each other; the one with the lesser id scans, gossips and
stops, and half a second later the other one scans and gossips. -/
def takeover : List (Happening Bool) :=
  [⟨moment 1, .boot false⟩, ⟨moment 1, .boot true⟩,
    ⟨moment 2, .heartbeat false⟩, ⟨moment 2, .heartbeat true⟩,
    ⟨moment 3, .deliver 0 false⟩, ⟨moment 3, .deliver 1 true⟩,
    ⟨moment 250, .heartbeat false⟩, ⟨moment 250, .heartbeat true⟩,
    ⟨moment 251, .deliver 0 false⟩, ⟨moment 251, .deliver 1 true⟩,
    ⟨moment 490, .sample false⟩, ⟨moment 491, .scan false .newest⟩,
    ⟨moment 492, .gossip false .newest (fun _ => 0)⟩, ⟨moment 500, .halt false⟩,
    ⟨moment 500, .heartbeat true⟩, ⟨moment 760, .heartbeat true⟩, ⟨moment 1000, .heartbeat true⟩,
    ⟨moment 1100, .sample true⟩, ⟨moment 1101, .scan true .newest⟩,
    ⟨moment 1101, .gossip true .newest (fun _ => 0)⟩, ⟨moment 1102, .sample true⟩]

/-- When the machines of that run are up: the first until it is stopped. -/
theorem takeover_up (k : Fin (takeover.length + 1)) (i : Bool) :
    Up pair takeover k i ↔ if i then 2 ≤ k.val else 1 ≤ k.val ∧ k.val ≤ 13 := by
  revert k i
  decide +kernel

theorem takeover_through {k l : Nat} {i : Bool} (hk : k < takeover.length)
    (h : Through pair takeover k l i) : if i then 2 ≤ k else 1 ≤ k ∧ l ≤ 13 := by
  have hup := (takeover_up ⟨k, Nat.lt_succ_of_lt hk⟩ i).mp h.up
  cases i with
  | true => exact hup
  | false =>
    refine ⟨hup.1, ?_⟩
    by_contra hl
    exact (h.stays ⟨13, by decide⟩ hup.2 (Nat.not_le.mp hl)).2 rfl

/-- The place where a machine's heartbeat sent at a place comes in, and under which index. -/
def arrival (b : Fin takeover.length) : Fin takeover.length × Nat :=
  if b.val = 2 then (⟨5, by decide⟩, 1) else if b.val = 3 then (⟨4, by decide⟩, 0)
  else if b.val = 6 then (⟨9, by decide⟩, 1) else (⟨8, by decide⟩, 0)

theorem takeover_steady : Steady pair takeover (300 * 10 ^ 6) (100 * 10 ^ 6) where
  clock := by decide
  beats := by
    have check : ∀ (k l : Fin takeover.length) (i : Bool), k < l →
        (if i then 2 ≤ k.val else 1 ≤ k.val ∧ l.val ≤ 13) →
        (takeover.get k).now.ns + 300 * 10 ^ 6 < (takeover.get l).now.ns →
        ∃ m : Fin takeover.length, k ≤ m ∧ m < l ∧ (takeover.get m).doing = .heartbeat i ∧
          (takeover.get m).now.ns ≤ (takeover.get k).now.ns + 300 * 10 ^ 6 := by decide +kernel
    intro k l i hkl hi hlate
    exact check k l i hkl (takeover_through k.isLt hi) hlate
  carried := by
    have check : ∀ (k l : Fin takeover.length) (j i : Bool), k < l → i ≠ j →
        (takeover.get k).doing = .heartbeat j → (if i then 2 ≤ k.val else 1 ≤ k.val ∧ l.val ≤ 13) →
        (takeover.get k).now.ns + 100 * 10 ^ 6 < (takeover.get l).now.ns →
        k < (arrival k).1 ∧ (arrival k).1 < l ∧ k.val ∈ [2, 3, 6, 7] ∧
          (takeover.get (arrival k).1).now.ns ≤ (takeover.get k).now.ns + 100 * 10 ^ 6 := by
      decide +kernel
    have taken : ∀ (k : Fin takeover.length) (j i : Bool), k.val ∈ [2, 3, 6, 7] → i ≠ j →
        (takeover.get k).doing = .heartbeat j →
        (takeover.get (arrival k).1).doing = .deliver (arrival k).2 i ∧
          (Before pair takeover (arrival k).1).sent[(arrival k).2]? =
            (Before pair takeover (k + 1)).sent.head? := by
      intro k j i hk hij hbeat
      fin_cases k
      all_goals first
        | exact absurd hk (by decide)
        | cases hbeat
          cases i
          · exact ⟨rfl, rfl⟩
          · exact absurd rfl hij
        | cases hbeat
          cases i
          · exact absurd rfl hij
          · exact ⟨rfl, rfl⟩
    intro k l j i hkl hij hbeat hj hi hlate
    obtain ⟨hlt, hml, hk, hnow⟩ := check k l j i hkl hij hbeat (takeover_through k.isLt hi) hlate
    obtain ⟨hdel, hsent⟩ := taken k j i hk hij hbeat
    exact ⟨(arrival k).1, (arrival k).2, hlt, hml, hdel, hnow, hsent⟩

theorem pair_patient : Patient pair (300 * 10 ^ 6 + 100 * 10 ^ 6) := by
  have defaults : 300 * 10 ^ 6 + 100 * 10 ^ 6 ≤
      Duration.fromMillis ((150 : UInt64) * (3 : UInt32).toUInt64).toNat ∧
      300 * 10 ^ 6 + 100 * 10 ^ 6 ≤ Duration.fromSecs (30 : UInt64).toNat := by decide
  intro i now d hd
  cases i <;> cases hd <;> exact defaults

theorem takeover_ids (k : Fin (takeover.length + 1)) (i : Bool) :
    ((Before pair takeover k).procs i).all (fun p =>
      p.daemon.selfId == if i then 2 else 1) = true := by
  revert k i
  decide +kernel

theorem takeover_stands : Stands pair takeover 2 := by
  intro k i p hp hid
  have hids := takeover_ids k.castSucc i
  rw [Fin.val_castSucc, hp, Option.all_some, hid] at hids
  cases i with
  | false => exact absurd hids (by decide)
  | true =>
    have hup : Up pair takeover k true := up_of_procs hp
    have hk : 2 ≤ k.val := (takeover_up k.castSucc true).mp hup
    refine ⟨hup, ?_⟩
    intro x hx _
    have hstart : x.val ≠ 1 := by omega
    fin_cases x
    case «1» => exact absurd rfl hstart
    all_goals simp [takeover]

/-- The other machine has scanned its record of the standing node and gossips of it. -/
theorem takeover_undoubted :
    (∃ p r, (Before pair takeover 12).procs false = some p ∧
      p.state.members.lookup 2 = some r ∧ r.state = .alive) ∧
    ∃ dg ∈ (Network.run pair takeover).sent, ∃ e ∈ gossipOf dg, e.nodeId = 2 ∧
      e.state = .alive := by
  have hall := standing_never_doubted pair takeover takeover_steady pair_patient 2 takeover_stands
  constructor
  · have check : ((Before pair takeover 12).procs false).any (fun p =>
        (p.state.members.lookup 2).isSome) = true := by decide +kernel
    obtain ⟨p, hp, hr⟩ := (Option.any_eq_true _ _).mp check
    obtain ⟨r, hr⟩ := Option.isSome_iff_exists.mp hr
    exact ⟨p, r, hp, hr, (hall (takeover.take 12) (takeover.drop 12) rfl).tables false p r hp hr⟩
  · have check : (Network.run pair takeover).sent.any (fun dg =>
        (gossipOf dg).any (fun e => e.nodeId == 2)) = true := by decide +kernel
    obtain ⟨dg, hdg, hany⟩ := List.any_eq_true.mp check
    obtain ⟨e, he, hid⟩ := List.any_eq_true.mp hany
    have hid : e.nodeId = 2 := eq_of_beq hid
    exact ⟨dg, hdg, e, he, hid,
      alive_gossipOf (hall takeover [] (List.append_nil _).symm) hdg he hid⟩

/-- What is on record stays there while scans only find it young. -/
theorem Through.stays_known {i : ι} {m l : Nat} (hi : Through hosts es m l i) {p : Process}
    {n : UInt16} (hp : (Before hosts es m).procs i = some p) (hn : n ∈ p.state.members)
    (hml : m ≤ l) (hl : l ≤ es.length)
    (hscan : ∀ c : Fin es.length, m ≤ c → c.val < l → ∀ ord q t r, (es.get c).doing = .scan i ord →
      (Before hosts es c).procs i = some q → q.state.sampled = some t →
      q.state.members.lookup n = some r → age t r < cleanupThreshold) :
    ∃ q, (Before hosts es l).procs i = some q ∧ n ∈ q.state.members := by
  induction l, hml using Nat.le_induction with
  | base => exact ⟨p, hp, hn⟩
  | succ l hml ih =>
    have hll : l ≤ es.length := Nat.le_of_succ_le hl
    obtain ⟨q, hq, hnq⟩ := ih (hi.sub (Nat.le_refl _) (Nat.le_succ l) (Nat.le_succ_of_le hml)
      (Nat.le_trans hml hll)) hll (fun c hc hcl => hscan c hc (Nat.lt_succ_of_lt hcl))
    obtain ⟨q', hq'⟩ := hi.runs (Nat.le_succ_of_le hml) (Nat.le_refl _) hl
    refine ⟨q', hq', ?_⟩
    rw [before_succ hosts ⟨l, hl⟩] at hq'
    exact step_keeps hq hnq (hi.stays ⟨l, hl⟩ hml (Nat.lt_succ_self l)).1
      (fun ord t r hd ht hr => hscan ⟨l, hl⟩ hml (Nat.lt_succ_self l) ord q t r hd hq ht hr) hq'

theorem age_eq {t : SystemTime} {r : NodeInfo} (h : r.lastSeen ≤ t) :
    age t r = t.ns - r.lastSeen.ns := by
  rw [age, SystemTime.durationSince, if_pos h, Option.getD_some]

/-- A record is not dropped before its time is up. -/
theorem Steady.kept_known (h : Steady hosts es period delay)
    (hprompt : Run.Along (Network.step hosts) Prompt Network.start es) {i : ι} {m e : Fin es.length}
    {p : Process} {n : UInt16} {r : NodeInfo} (hp : (Before hosts es (m + 1)).procs i = some p)
    (hr : p.state.members.lookup n = some r) (hm : r.lastSeen = (es.get m).now) {l : Nat}
    (hml : m < l) (hle : l ≤ e + 1) (hi : Through hosts es (m + 1) l i)
    (hlong : (es.get e).now.ns < (es.get m).now.ns + cleanupThreshold) :
    ∃ q, (Before hosts es l).procs i = some q ∧ n ∈ q.state.members := by
  refine hi.stays_known hp (AList.lookup_isSome.mp (by rw [hr]; rfl)) hml
    (Nat.le_trans hle e.isLt) ?_
  intro c hmc hcl ord s t r' hd hs ht hr'
  have hgrown := h.stamp_grows hp hr hm hmc (Nat.le_of_lt c.isLt) hs hr'
  have hsplit : es = es.take c ++ (es.get c) :: es.drop (c + 1) := by
    conv_lhs => rw [← List.take_append_drop c es, List.drop_eq_getElem_cons c.isLt]
    rfl
  have hyoung := hprompt _ _ _ hsplit i ord s t n r' hd hs ht hr'
  obtain ⟨a, ha, rfl⟩ := sampled_before (Nat.le_of_lt c.isLt) hs ht
  have hae := h.clock_le (k := a) (l := e) (Nat.le_of_lt (Nat.lt_of_lt_of_le ha
    (Nat.le_of_lt_succ (Nat.lt_of_lt_of_le hcl hle))))
  rw [age_eq hyoung]
  refine Nat.sub_lt_left_of_lt_add hyoung ?_
  exact Nat.lt_of_le_of_lt hae (Nat.lt_of_lt_of_le hlong (Nat.add_le_add_right hgrown _))

/-- Who goes on while another node is up for longer than a period and a delay has that node on
record for as long as the last heartbeat of it is not old. -/
theorem Steady.known (h : Steady hosts es period delay)
    (hprompt : Run.Along (Network.step hosts) Prompt Network.start es) {i j : ι}
    {k l e : Fin es.length} {c : Nat} (hkl : k < l) (hlc : l ≤ c) (hce : c ≤ e + 1)
    (hi : Through hosts es k c i) (hj : Through hosts es k l j)
    (hlong : (es.get k).now.ns + period + delay < (es.get l).now.ns)
    (hsoon : (es.get e).now.ns + period + delay < (es.get l).now.ns + cleanupThreshold)
    {p q : Process} (hp : (Before hosts es c).procs i = some p)
    (hq : (Before hosts es k).procs j = some q) (hne : q.daemon.selfId ≠ p.daemon.selfId) :
    q.daemon.selfId ∈ p.state.members := by
  have hlen : c ≤ es.length := Nat.le_trans hce e.isLt
  have hkc : k.val ≤ c := Nat.le_trans (Nat.le_of_lt hkl) hlc
  obtain ⟨pk, hpk⟩ := Option.isSome_iff_exists.mp hi.up
  have hpd := hi.same hpk hp hkc (Nat.le_refl _) hlen
  obtain ⟨m, p', r, hkm, hml, hm, hp', hr, hstamp⟩ :=
    h.hears hkl (hi.sub (Nat.le_refl _) hlc hkc (Nat.le_of_lt k.isLt)) hj hlong hpk hq
      (by rw [← hpd]; exact hne)
  have hmc : m.val < c := Nat.lt_of_lt_of_le hml hlc
  have hyoung : (es.get e).now.ns < (es.get m).now.ns + cleanupThreshold := by
    generalize cleanupThreshold = cleanup at hsoon ⊢
    omega
  obtain ⟨p'', hp'', hn⟩ := h.kept_known hprompt hp' hr hstamp hmc hce
    (hi.sub (Nat.le_trans (Nat.le_of_lt hkm) (Nat.le_succ _)) (Nat.le_refl _) hmc m.isLt) hyoung
  rw [hp] at hp''
  cases hp''
  exact hn

end Hivebus.Proofs.Heartbeats
