import Hivebus.Bus.Cluster
import Hivebus.Bus.News
import Hivebus.Proofs.GossipSize

namespace Hivebus.Proofs.Forgetting
open Lib Proto Bus GossipSize

/-- A run of `k` daemons under one clock, whose frames take at most `delay`. All gossip
in it is their own. -/
structure ClusterRun (k : Nat) (delay : Duration) where
  sites : Fin k → Site
  distinct : ∀ i j, (sites i).daemon.selfId = (sites j).daemon.selfId → i = j
  moves : List (Move k)
  ordered : moves.Pairwise (fun a b => a.now ≤ b.now)
  frames : ∀ e ∈ moves, ∀ i source sentAt f, e.act = .frame i source sentAt f →
    sentAt ≤ e.now ∧ e.now.ns ≤ sentAt.ns + delay ∧ ∀ pl, f.message ≠ .gossip pl

/-- The cluster after some of the moves of a run. -/
def ClusterRun.after {k : Nat} {delay : Duration} (run : ClusterRun k delay)
    (pre : List (Move k)) : Cluster k :=
  Run.exec (move delay run.sites) Cluster.start pre

def timesOf {k : Nat} (moves : List (Move k)) (p : Act k → Bool) : List Nat :=
  (moves.filter (fun e => p e.act)).map (fun e => e.now.ns)

def isSample {k : Nat} (i : Fin k) : Act k → Bool
  | .sample j => j == i
  | _ => false

def isScan {k : Nat} (i : Fin k) : Act k → Bool
  | .scan j => j == i
  | _ => false

def isGossip {k : Nat} (i : Fin k) : Act k → Bool
  | .gossip j => j == i
  | _ => false

/-- Something is done every `period` from some phase on, with none left out before the
end of the run. -/
def Periodic {k : Nat} (period : Duration) (moves : List (Move k)) (times : List Nat) : Prop :=
  ∃ phase, phase < period ∧ times = (List.range times.length).map (fun m => phase + period * m) ∧
    ∀ e ∈ moves, e.now.ns < phase + period * times.length

/-- Each daemon ticks every 100 ms, at once under the lock, and gossips every 500 ms, all
in phases of their own. -/
def Scheduled {k : Nat} {delay : Duration} (run : ClusterRun k delay) : Prop :=
  ∀ i, Periodic (Duration.fromMillis 100) run.moves (timesOf run.moves (isSample i)) ∧
    timesOf run.moves (isScan i) = timesOf run.moves (isSample i) ∧
    Periodic (Duration.fromMillis 500) run.moves (timesOf run.moves (isGossip i))

/-- Node `n` sends nothing after `quiet`: no frame of its own, and no gossip should it be
one of the daemons. -/
def Silent {k : Nat} {delay : Duration} (run : ClusterRun k delay) (n : UInt16)
    (quiet : SystemTime) : Prop :=
  ∀ pre e post, run.moves = pre ++ e :: post →
    (∀ i source sentAt f, e.act = .frame i source sentAt f → f.nodeId = n → sentAt ≤ quiet) ∧
    ∀ i, e.act = .gossip i → (run.sites i).daemon.selfId = n → quiet < e.now →
      (gossipRound (run.sites i).ord (run.sites i).daemon (fun _ => epochMs e.now)
        ((run.after pre).nodes i).seq ((run.after pre).nodes i).state.members).2 = none

/-- Right after a tick later than `quiet` by more than `bound`, node `n` is not in the
table of the daemon that ticked. -/
def Forgotten {k : Nat} {delay : Duration} (run : ClusterRun k delay) (n : UInt16)
    (quiet : SystemTime) (bound : Duration) : Prop :=
  ∀ pre e post i sampled, run.moves = pre ++ e :: post → e.act = .scan i →
    ((run.after pre).nodes i).state.sampled = some sampled → quiet.ns + bound < sampled.ns →
    n ∉ ((run.after (pre ++ [e])).nodes i).state.members

/-- No gossip that is delivered more than `grace` after `quiet` brings node `n` into a
table it is not in. -/
def NotRevived {k : Nat} {delay : Duration} (run : ClusterRun k delay) (n : UInt16)
    (quiet : SystemTime) (grace : Duration) : Prop :=
  ∀ pre e post ix copy nid pl, run.moves = pre ++ e :: post → e.act = .deliver ix →
    (run.after pre).wire[ix]? = some copy → e.now.ns ≤ copy.sentAt.ns + delay →
    decodeFrame copy.data = some ⟨nid, .gossip pl⟩ →
    nid ≠ (run.sites copy.dest).daemon.selfId → n ≠ (run.sites copy.dest).daemon.selfId →
    (∃ entry ∈ pl.entries, entry.nodeId = n) → quiet.ns + grace < e.now.ns →
    n ∈ ((run.after pre).nodes copy.dest).state.members

/-- A stamp gossip leaves on a record was there before, or the record is new. -/
theorem gossip_lastSeen {selfId : UInt16} {now : SystemTime} {source : SocketAddr}
    {pl : GossipPayload} {m : Members} {n : UInt16} {r' : NodeInfo}
    (h : (onGossip selfId now source pl m).lookup n = some r') :
    (∃ r, m.lookup n = some r ∧ r'.lastSeen = r.lastSeen) ∨
      r'.lastSeen = now ∧ n ≠ selfId ∧ (∃ entry ∈ pl.entries, entry.nodeId = n) ∧ n ∉ m := by
  unfold onGossip at h
  cases hn : m.lookup n with
  | some r =>
    obtain ⟨q, hq, same⟩ := gossip_known selfId now source pl.entries m hn
    rw [hq] at h
    cases h
    exact .inl ⟨r, rfl, same.lastSeen⟩
  | none =>
    by_cases hns : n = selfId
    · rw [hns, gossip_unnamed, ← hns, hn] at h
      cases h
    · have hstr := gossip_stranger now source hns pl.entries m hn
      split at hstr
      · next hex =>
        obtain ⟨q, hq, _, hs⟩ := hstr
        rw [hq] at h
        cases h
        exact .inr ⟨hs, hns, hex, AList.lookup_eq_none.mp hn⟩
      · rw [hstr] at h
        cases h

/-- A stamp a frame leaves on a record was there before, or is of the moment: the record's
node sent the frame, or gossip brought it into the table. -/
theorem handleFrame_lastSeen {selfId : UInt16} {now : SystemTime} {source : SocketAddr} {f : Frame}
    {m : Members} {n : UInt16} {r' : NodeInfo}
    (h : (handleFrame selfId now source f m).lookup n = some r') :
    (∃ r, m.lookup n = some r ∧ r'.lastSeen = r.lastSeen) ∨
      r'.lastSeen = now ∧ (f.nodeId = n ∧ (∀ pl, f.message ≠ .gossip pl) ∨
        ∃ pl, f.message = .gossip pl ∧ f.nodeId ≠ selfId ∧ n ≠ selfId ∧
          (∃ entry ∈ pl.entries, entry.nodeId = n) ∧ n ∉ m) := by
  obtain ⟨nid, msg⟩ := f
  unfold handleFrame at h
  split at h
  · exact .inl ⟨r', h, rfl⟩
  · next hself =>
    cases msg with
    | ignored => exact .inl ⟨r', h, rfl⟩
    | heartbeat pl =>
      simp only [onHeartbeat, Table.lookup_upsert] at h
      split at h
      · next hn =>
        cases h
        exact .inr ⟨rfl, .inl ⟨hn.symm, fun _ he => nomatch he⟩⟩
      · exact .inl ⟨r', h, rfl⟩
    | announce pl =>
      simp only [onAnnounce, Table.lookup_insert_if] at h
      split at h
      · next hn =>
        cases h
        exact .inr ⟨rfl, .inl ⟨hn.symm, fun _ he => nomatch he⟩⟩
      · exact .inl ⟨r', h, rfl⟩
    | leave pl =>
      simp only [onLeave, Table.lookup_modify] at h
      split at h
      · obtain ⟨r, hr, rfl⟩ := Option.map_eq_some_iff.mp h
        exact .inl ⟨r, hr, rfl⟩
      · exact .inl ⟨r', h, rfl⟩
    | gossip pl =>
      rcases gossip_lastSeen h with hold | ⟨hs, hns, hex, hout⟩
      · exact .inl hold
      · exact .inr ⟨hs, .inr ⟨pl, rfl, hself, hns, hex, hout⟩⟩

/-- Only gossip is on the wire. -/
def Gossiping {k : Nat} (c : Cluster k) : Prop :=
  ∀ copy ∈ c.wire, ∃ nid pl, decodeFrame copy.data = some ⟨nid, .gossip pl⟩

/-- No record of the node is stamped later than the limit. -/
def Dated {k : Nat} (n : UInt16) (limit : Nat) (c : Cluster k) : Prop :=
  ∀ i r, (c.nodes i).state.members.lookup n = some r → r.lastSeen.ns ≤ limit

theorem move_gossiping {k : Nat} (delay : Duration) (sites : Fin k → Site) (c : Cluster k)
    (e : Move k) (h : Gossiping c) : Gossiping (move delay sites c e) := by
  obtain ⟨now, act⟩ := e
  cases act with
  | sample i => exact h
  | scan i => exact h
  | frame i source sentAt f => exact h
  | gossip i =>
    intro copy hc
    simp only [move] at hc
    rcases List.mem_append.mp hc with hc | hc
    · split at hc
      · next data hsent =>
        obtain ⟨j, _, rfl⟩ := List.mem_map.mp hc
        exact ⟨_, _, gossipRound_decodes hsent⟩
      · cases hc
    · exact h copy hc
  | deliver ix =>
    simp only [move]
    split
    · split
      · intro copy hc
        exact h copy (List.mem_of_mem_eraseIdx hc)
      · exact h
    · exact h

theorem onNode_dated {k : Nat} {n : UInt16} {limit : Nat} {c : Cluster k} {i : Fin k}
    {f : State → State} (h : Dated n limit c)
    (hf : ∀ r, (f (c.nodes i).state).members.lookup n = some r → r.lastSeen.ns ≤ limit) :
    Dated n limit (c.onNode i f) := by
  intro j r hr
  simp only [Cluster.onNode] at hr
  by_cases hj : j = i
  · subst hj
    rw [Function.update_self] at hr
    exact hf r hr
  · rw [Function.update_of_ne hj] at hr
    exact h j r hr

/-- A frame taken in by a daemon that dates the node anew comes in time. -/
theorem recv_dated {k : Nat} {n : UInt16} {limit : Nat} {c : Cluster k} {i : Fin k}
    {selfId : UInt16} {now : SystemTime} {source : SocketAddr} {f : Frame} (h : Dated n limit c)
    (hnow : (f.nodeId = n ∧ (∀ pl, f.message ≠ .gossip pl) ∨
      ∃ pl, f.message = .gossip pl ∧ f.nodeId ≠ selfId ∧ n ≠ selfId ∧
        (∃ entry ∈ pl.entries, entry.nodeId = n) ∧ n ∉ (c.nodes i).state.members) →
      now.ns ≤ limit) {r : NodeInfo}
    (hr : (handleFrame selfId now source f (c.nodes i).state.members).lookup n = some r) :
    r.lastSeen.ns ≤ limit := by
  rcases handleFrame_lastSeen hr with ⟨r₀, hr₀, he⟩ | ⟨he, hwhy⟩
  · rw [he]
    exact h i r₀ hr₀
  · rw [he]
    exact hnow hwhy

/-- What dates the node anew comes before the limit. -/
def InTime {k : Nat} (delay : Duration) (sites : Fin k → Site) (n : UInt16) (limit : Nat)
    (c : Cluster k) (e : Move k) : Prop :=
  match e.act with
  | .frame _ _ _ f => (∀ pl, f.message ≠ .gossip pl) ∧ (f.nodeId = n → e.now.ns ≤ limit)
  | .deliver ix => ∀ copy nid pl, c.wire[ix]? = some copy → e.now.ns ≤ copy.sentAt.ns + delay →
      decodeFrame copy.data = some ⟨nid, .gossip pl⟩ →
      nid ≠ (sites copy.dest).daemon.selfId → n ≠ (sites copy.dest).daemon.selfId →
      (∃ entry ∈ pl.entries, entry.nodeId = n) → n ∉ (c.nodes copy.dest).state.members →
      e.now.ns ≤ limit
  | _ => True

theorem move_dated {k : Nat} {delay : Duration} {sites : Fin k → Site} {n : UInt16} {limit : Nat}
    {c : Cluster k} {e : Move k} (hg : Gossiping c) (h : Dated n limit c)
    (ht : InTime delay sites n limit c e) : Dated n limit (move delay sites c e) := by
  obtain ⟨now, act⟩ := e
  cases act with
  | sample i =>
    simp only [move]
    apply onNode_dated h
    intro r hr
    exact h i r (by rw [← turn_sample (sites i).ord (sites i).daemon _ now]; exact hr)
  | scan i =>
    simp only [move]
    apply onNode_dated h
    intro r' hr'
    rcases turn_scan (sites i).ord (sites i).daemon (c.nodes i).state now with hm | ⟨t, _, hm⟩
    · exact h i r' (by rw [← hm]; exact hr')
    · have hs : (scan (sites i).ord (sites i).daemon t (c.nodes i).state.members).lookup n =
          some r' := by rw [← hm]; exact hr'
      obtain ⟨r, st, b, hr, _, rfl⟩ := lookup_scan_some hs
      exact h i r hr
  | frame i source sentAt f =>
    simp only [move]
    apply onNode_dated h
    intro r hr
    refine recv_dated h ?_ hr
    intro hwhy
    rcases hwhy with ⟨hn, _⟩ | ⟨pl, hpl, _⟩
    · exact ht.2 hn
    · exact absurd hpl (ht.1 pl)
  | gossip i =>
    intro j r hr
    simp only [move] at hr
    by_cases hj : j = i
    · subst hj
      rw [Function.update_self] at hr
      exact h j r hr
    · rw [Function.update_of_ne hj] at hr
      exact h j r hr
  | deliver ix =>
    simp only [move]
    split
    · next copy hcopy =>
      split
      · next hin =>
        apply onNode_dated (c := { c with wire := c.wire.eraseIdx ix }) h
        intro r hr
        obtain ⟨nid, pl, hdec⟩ := hg copy (List.mem_of_getElem? hcopy)
        simp only [take, Bus.listen, hdec] at hr
        refine recv_dated h ?_ hr
        intro hwhy
        rcases hwhy with ⟨_, hng⟩ | ⟨pl', hpl, hself, hns, hex, hout⟩
        · exact absurd rfl (hng pl)
        · cases hpl
          exact ht copy nid pl hcopy hin hdec hself hns hex hout
      · exact h
    · exact h

/-- Stamps of a silent node stand still, but for frames on their way and gossip within
the grace period. -/
theorem after_dated {k : Nat} {delay : Duration} {run : ClusterRun k delay} {n : UInt16}
    {quiet : SystemTime} {grace : Duration} (hs : Silent run n quiet)
    (hr : NotRevived run n quiet grace) {pre post : List (Move k)} (he : run.moves = pre ++ post) :
    Dated n (quiet.ns + max grace delay) (run.after pre) := by
  have hmax := Nat.le_max_left grace delay
  have hmax' := Nat.le_max_right grace delay
  have hcond : Run.Along (move delay run.sites)
      (InTime delay run.sites n (quiet.ns + max grace delay)) Cluster.start run.moves := by
    intro pre e post he
    have hmem : e ∈ run.moves := by rw [he]; simp
    unfold InTime
    split
    · next i source sentAt f hact =>
      obtain ⟨_, hlate, hng⟩ := run.frames e hmem i source sentAt f hact
      refine ⟨hng, ?_⟩
      intro hn
      have hq : sentAt.ns ≤ quiet.ns := (hs pre e post he).1 i source sentAt f hact hn
      omega
    · next ix hact =>
      intro copy nid pl hcopy hin hdec hself hns hex hout
      by_contra hlate
      exact hout (hr pre e post ix copy nid pl he hact hcopy hin hdec hself hns hex (by omega))
    · trivial
  have h0 : Gossiping (Cluster.start (k := k)) ∧
      Dated n (quiet.ns + max grace delay) (Cluster.start (k := k)) := by
    refine ⟨?_, ?_⟩
    · intro copy hc
      cases hc
    · intro i r hr
      cases hr
  have hinv := Run.throughout_of_along
    (I := fun c => Gossiping c ∧ Dated n (quiet.ns + max grace delay) c)
    (fun c e h ht => ⟨move_gossiping delay run.sites c e h.1, move_dated h.1 h.2 ht⟩) h0 hcond
  exact (hinv pre post he).2

/-- In every run in which gossip does not bring a silent node back after a grace period,
each daemon has forgotten the node 300 s after that period, or after the last frames of the
node are in. -/
theorem silent_node_forgotten {k : Nat} {delay : Duration} (run : ClusterRun k delay) {n : UInt16}
    {quiet : SystemTime} {grace : Duration} (hs : Silent run n quiet)
    (hr : NotRevived run n quiet grace) :
    Forgotten run n quiet (max grace delay + cleanupThreshold) := by
  intro pre e post i sampled he hact hsam hlate
  have hd := after_dated hs hr he i
  obtain ⟨now, act⟩ := e
  have hact : act = .scan i := hact
  subst hact
  have hm : ((run.after (pre ++ [⟨now, .scan i⟩])).nodes i).state.members =
      scan (run.sites i).ord (run.sites i).daemon sampled
        ((run.after pre).nodes i).state.members := by
    rw [ClusterRun.after, Run.exec_append, Run.exec_cons, Run.exec_nil]
    have hsam : ((Run.exec (move delay run.sites) Cluster.start pre).nodes i).state.sampled =
      some sampled := hsam
    simp only [move, Cluster.onNode, Function.update_self, step, hsam]
    rfl
  rw [hm, ← AList.lookup_eq_none, lookup_scan_none]
  intro r hl
  have hle := hd r hl
  have hrle : r.lastSeen ≤ sampled := by
    show r.lastSeen.ns ≤ sampled.ns
    omega
  rw [age, SystemTime.durationSince, if_pos hrle]
  exact Nat.le_sub_of_add_le (by omega)

/-- How many tenths of a second the clock has. -/
def clockEnd : Nat := 2 ^ 63 * 10

/-- The clock some tenths of a second after the epoch, or at its end. -/
def clockAt (u : Nat) : SystemTime := ⟨min (u * 10 ^ 8) (2 ^ 63 * 10 ^ 9 - 1), by omega⟩

def node1 : Daemon := defaultDaemon 1 "node1" (.v4 ⟨0x0A2A000B⟩ 7778) 1

-- The places 0 and 1 below share this one proof.
local instance two_ne_zero : NeZero 2 := ⟨by decide⟩

/-- The first two nodes of the documented cluster; the third one is to fall silent. -/
def twoSites : Fin 2 → Site
  | 0 => ⟨node1, peer 1, .newest⟩
  | 1 => ⟨node2, peer 2, .newest⟩

theorem twoSites_distinct (i j : Fin 2)
    (h : (twoSites i).daemon.selfId = (twoSites j).daemon.selfId) : i = j := by
  revert i j
  decide

theorem third_not_self (i : Fin 2) : 3 ≠ (twoSites i).daemon.selfId := by
  revert i
  decide

def beat (now : SystemTime) (i : Fin 2) : List (Move 2) := [⟨now, .sample i⟩, ⟨now, .scan i⟩]

def beats (now : SystemTime) : List (Move 2) := beat now 0 ++ beat now 1

/-- The last frame of node 3. -/
def hello : Move 2 := ⟨clockAt 0, .frame 0 (peer 3) (clockAt 0) ⟨3, .heartbeat ⟨1, 0⟩⟩⟩

/-- No other frame than that comes to a daemon from outside. -/
def HelloOnly (moves : List (Move 2)) : Prop :=
  ∀ e ∈ moves, e = hello ∨ ∀ i source sentAt f, e.act ≠ .frame i source sentAt f

theorem HelloOnly.frames {moves : List (Move 2)} (h : HelloOnly moves) (delay : Duration) :
    ∀ e ∈ moves, ∀ i source sentAt f, e.act = .frame i source sentAt f →
      sentAt ≤ e.now ∧ e.now.ns ≤ sentAt.ns + delay ∧ ∀ pl, f.message ≠ .gossip pl := by
  intro e he i source sentAt f hact
  rcases h e he with rfl | hnot
  · cases hact
    exact ⟨Nat.le_refl _, Nat.le_add_right _ _, fun _ hpl => nomatch hpl⟩
  · exact absurd hact (hnot i source sentAt f)

theorem HelloOnly.silent {delay : Duration} {run : ClusterRun 2 delay} (h : HelloOnly run.moves)
    (hsites : run.sites = twoSites) : Silent run 3 (clockAt 0) := by
  intro pre e post he
  refine ⟨?_, ?_⟩
  · intro i source sentAt f hact _
    rcases h e (by rw [he]; simp) with rfl | hnot
    · cases hact
      exact Nat.le_refl _
    · exact absurd hact (hnot i source sentAt f)
  · intro i _ hself
    rw [hsites] at hself
    exact absurd hself.symm (third_not_self i)

/-- Node 3 is heard once, by the first daemon, which tells the second one at once; both
tick 300.1 s later. -/
def farewell : List (Move 2) :=
  [hello, ⟨clockAt 0, .gossip 0⟩, ⟨clockAt 0, .deliver 1⟩] ++ beats (clockAt 3001)

theorem farewell_helloOnly : HelloOnly farewell := by
  intro e h
  simp only [farewell, beats, beat, List.cons_append, List.nil_append, List.mem_cons,
    List.not_mem_nil, or_false] at h
  rcases h with rfl | rfl | rfl | rfl | rfl | rfl | rfl
  · exact .inl rfl
  all_goals
    refine .inr ?_
    intro _ _ _ _ he
    cases he

theorem farewell_delivers {e : Move 2} {ix : Nat} (h : e ∈ farewell) (hact : e.act = .deliver ix) :
    e.now = clockAt 0 := by
  simp only [farewell, beats, beat, List.cons_append, List.nil_append, List.mem_cons,
    List.not_mem_nil, or_false] at h
  rcases h with rfl | rfl | rfl | rfl | rfl | rfl | rfl
  all_goals first | rfl | cases hact

def farewellRun : ClusterRun 2 0 where
  sites := twoSites
  distinct := twoSites_distinct
  moves := farewell
  ordered := by decide
  frames := farewell_helloOnly.frames 0

theorem farewell_forgotten : Silent farewellRun 3 (clockAt 0) ∧
    NotRevived farewellRun 3 (clockAt 0) 0 ∧
    Forgotten farewellRun 3 (clockAt 0) cleanupThreshold := by
  have hs : Silent farewellRun 3 (clockAt 0) := HelloOnly.silent farewell_helloOnly rfl
  have hr : NotRevived farewellRun 3 (clockAt 0) 0 := by
    intro pre e post ix copy nid pl he hact _ _ _ _ _ _ hlate
    have he : farewell = pre ++ e :: post := he
    rw [farewell_delivers (by rw [he]; simp) hact] at hlate
    exact absurd hlate (Nat.lt_irrefl _)
  have h := silent_node_forgotten farewellRun hs hr
  rw [Nat.max_self, Nat.zero_add] at h
  exact ⟨hs, hr, h⟩

/-- Who hears of node 3 at the `m`-th handover, and who tells. -/
def taker (m : Nat) : Fin 2 := if m % 2 = 0 then 0 else 1

def giver (m : Nat) : Fin 2 := if m % 2 = 0 then 1 else 0

theorem taker_succ (m : Nat) : taker (m + 1) = giver m := by
  unfold taker giver
  split <;> split <;> first | rfl | omega

theorem giver_succ (m : Nat) : giver (m + 1) = taker m := by
  unfold taker giver
  split <;> split <;> first | rfl | omega

theorem giver_ne_taker (m : Nat) : giver m ≠ taker m := by
  unfold taker giver
  split <;> decide

def gossips (now : SystemTime) (i j : Fin 2) : List (Move 2) := [⟨now, .gossip i⟩, ⟨now, .gossip j⟩]

/-- What happens in one tenth of a second. Node 3 is heard once, by the first daemon, at
the start; every 150 s one gossip frame gets through, all others are lost. -/
def tenth (u : Nat) : List (Move 2) :=
  (if u = 0 then [hello] else []) ++
  (beats (clockAt u) ++
  ((if u % 5 = 0 then gossips (clockAt u) (taker (u / 1500)) (giver (u / 1500)) else []) ++
  (if u ≠ 0 ∧ u % 1500 = 0 then [⟨clockAt u, .deliver (taker (u / 1500))⟩] else [])))

def relay (u : Nat) : List (Move 2) := (List.range u).flatMap tenth

theorem relay_succ (u : Nat) : relay (u + 1) = relay u ++ tenth u := by
  rw [relay, List.range_succ, List.flatMap_append, List.flatMap_singleton, relay]

theorem clockAt_ns {u : Nat} (h : u < clockEnd) : (clockAt u).ns = u * 10 ^ 8 := by
  simp only [clockEnd] at h
  simp only [clockAt]
  omega

theorem clockAt_mono {u v : Nat} (h : u ≤ v) : clockAt u ≤ clockAt v := by
  show min (u * 10 ^ 8) (2 ^ 63 * 10 ^ 9 - 1) ≤ min (v * 10 ^ 8) (2 ^ 63 * 10 ^ 9 - 1)
  omega

/-- What a daemon has of node 3 between two of its turns: nothing, or a record with this
stamp. -/
def Holds (c : Cluster 2) (i : Fin 2) : Option SystemTime → Prop
  | none => (c.nodes i).state = ⟨∅, none⟩
  | some t => ∃ r, (c.nodes i).state = ⟨AList.singleton 3 r, none⟩ ∧ r.nodeId = 3 ∧ r.lastSeen = t

theorem Holds.congr {c c' : Cluster 2} {i : Fin 2} {held : Option SystemTime} (h : Holds c i held)
    (he : (c'.nodes i).state = (c.nodes i).state) : Holds c' i held := by
  cases held with
  | none => exact he.trans h
  | some t =>
    obtain ⟨r, hr, hid, ht⟩ := h
    exact ⟨r, he.trans hr, hid, ht⟩

/-- What is left of it after a tick. -/
def aged (now : SystemTime) (held : Option SystemTime) : Option SystemTime :=
  held.filter (fun t => now.ns < t.ns + cleanupThreshold)

/-- A scan of a table with one record drops it when it is stale, and otherwise leaves it
its id and its stamp. -/
theorem scan_singleton (ord : Table.Order UInt16 NodeInfo) (d : Daemon) {now : SystemTime}
    {n : UInt16} {r : NodeInfo} (hle : r.lastSeen ≤ now) :
    if now.ns < r.lastSeen.ns + cleanupThreshold then
      ∃ st b, scan ord d now (AList.singleton n r) =
        AList.singleton n { r with state := st, isMaster := b }
    else scan ord d now (AList.singleton n r) = ∅ := by
  have hage : age now r = now.ns - r.lastSeen.ns := by
    rw [age, SystemTime.durationSince, if_pos hle]
    rfl
  have hle : r.lastSeen.ns ≤ now.ns := hle
  obtain ⟨st, hst⟩ := downgrade_eq d now r
  split
  · next hfresh =>
    have hlt : age now r < cleanupThreshold := by
      rw [hage]
      exact Nat.sub_lt_left_of_lt_add hle hfresh
    refine ⟨st, some r.nodeId == masterFrom ord (agedMembers d now (AList.singleton n r)) d.selfId,
      ?_⟩
    apply AList.ext
    simp [scan, agedMembers, Table.retain, Table.mapValues, hlt, hst]
  · next hold =>
    have hge : ¬ age now r < cleanupThreshold := by
      rw [hage]
      exact Nat.not_lt.mpr (Nat.le_sub_of_add_le' (Nat.not_lt.mp hold))
    apply AList.ext
    simp [scan, agedMembers, Table.retain, Table.mapValues, hge]

theorem exec_beat_self (delay : Duration) (c : Cluster 2) (now : SystemTime) (i : Fin 2)
    {m : Members} (h : (c.nodes i).state = ⟨m, none⟩) :
    ((Run.exec (move delay twoSites) c (beat now i)).nodes i).state =
      ⟨scan (twoSites i).ord (twoSites i).daemon now m, none⟩ := by
  simp [beat, move, Cluster.onNode, h, step]

theorem exec_beat_other (delay : Duration) (c : Cluster 2) (now : SystemTime) {i j : Fin 2}
    (h : j ≠ i) : (Run.exec (move delay twoSites) c (beat now i)).nodes j = c.nodes j := by
  simp [beat, move, Cluster.onNode, h]

/-- A tick of one daemon ages what it has of node 3. -/
theorem beat_holds {delay : Duration} {c : Cluster 2} {now : SystemTime} {i : Fin 2}
    {held : Option SystemTime} (h : Holds c i held) (hle : ∀ t, held = some t → t ≤ now) :
    Holds (Run.exec (move delay twoSites) c (beat now i)) i (aged now held) := by
  cases held with
  | none => exact exec_beat_self delay c now i h
  | some t =>
    obtain ⟨r, hr, hid, rfl⟩ := h
    have hs := exec_beat_self delay c now i hr
    have hscan := scan_singleton (twoSites i).ord (twoSites i).daemon (n := 3) (hle _ rfl)
    split at hscan
    · next hfresh =>
      obtain ⟨st, b, he⟩ := hscan
      rw [he] at hs
      rw [aged, Option.filter_some, if_pos (by simpa using hfresh)]
      exact ⟨_, hs, hid, rfl⟩
    · next hold =>
      rw [hscan] at hs
      rw [aged, Option.filter_some, if_neg (by simpa using hold)]
      exact hs

theorem beats_holds {delay : Duration} {c : Cluster 2} {now : SystemTime} {i : Fin 2}
    {held : Option SystemTime} (h : Holds c i held) (hle : ∀ t, held = some t → t ≤ now) :
    Holds (Run.exec (move delay twoSites) c (beats now)) i (aged now held) := by
  rw [beats, Run.exec_append]
  by_cases hi : i = 0
  · subst hi
    exact (beat_holds h hle).congr (by rw [exec_beat_other _ _ _ (by decide)])
  · have h1 : i = 1 := by omega
    subst h1
    exact beat_holds (h.congr (by rw [exec_beat_other _ _ _ (by decide)])) hle

theorem gossip_holds (delay : Duration) {c : Cluster 2} (now : SystemTime) {i : Fin 2} (j : Fin 2)
    {held : Option SystemTime} (h : Holds c i held) :
    Holds (move delay twoSites c ⟨now, .gossip j⟩) i held := by
  apply h.congr
  by_cases hi : i = j
  · subst hi
    simp only [move, Function.update_self]
  · simp only [move, Function.update_of_ne hi]

/-- A table that is empty takes one record from gossip about it. -/
theorem handover_record {selfId nid : UInt16} (now : SystemTime) (source : SocketAddr)
    {entry : GossipEntry} (hs : nid ≠ selfId) (he : entry.nodeId ≠ selfId) :
    ∃ r, handleFrame selfId now source ⟨nid, .gossip ⟨[entry]⟩⟩ ∅ =
      AList.singleton entry.nodeId r ∧ r.nodeId = entry.nodeId ∧ r.lastSeen = now := by
  have same := absorb_keeps entry (gossipRecord now source entry)
  refine ⟨absorb entry (gossipRecord now source entry), ?_, same.nodeId, same.lastSeen⟩
  simp only [handleFrame, hs, onGossip, List.foldl_cons, List.foldl_nil, onGossipEntry, he,
    ↓reduceIte, Table.upsert, AList.lookup_empty, Option.getD_none, AList.insert_empty]

/-- The copies of a round about node 3 are the first ones on the wire. -/
theorem gossip_wire (delay : Duration) {c : Cluster 2} (now : SystemTime) (i : Fin 2) {j : Fin 2}
    {t : SystemTime} (h : Holds c j (some t)) :
    ∃ data entry, (move delay twoSites c ⟨now, .gossip j⟩).wire[i.val]? =
        some ⟨i, (twoSites j).source, now, data⟩ ∧
      decodeFrame data = some ⟨(twoSites j).daemon.selfId, .gossip ⟨[entry]⟩⟩ ∧
      entry.nodeId = 3 := by
  obtain ⟨r, hr, hid, _⟩ := h
  obtain ⟨data, hsent, hdec⟩ := gossipRound_singleton (twoSites j).ord (twoSites j).daemon
    (fun _ => epochMs now) (c.nodes j).seq 3 r
  refine ⟨data, _, ?_, hdec, hid⟩
  simp only [move, hr, hsent]
  have hlt : i.val < ((List.finRange 2).map
      (fun l => (⟨l, (twoSites j).source, now, data⟩ : Copy 2))).length := by
    rw [List.length_map, List.length_finRange]
    exact i.isLt
  rw [List.getElem?_append_left hlt, List.getElem?_eq_getElem hlt, List.getElem_map,
    List.getElem_finRange]
  rfl

/-- A daemon that has dropped node 3 takes what it hears of it for news. -/
theorem deliver_holds (delay : Duration) {c : Cluster 2} {now : SystemTime} {ix : Nat} {i : Fin 2}
    {source : SocketAddr} {data : List UInt8} {nid : UInt16} {entry : GossipEntry}
    (hc : c.wire[ix]? = some ⟨i, source, now, data⟩)
    (hdec : decodeFrame data = some ⟨nid, .gossip ⟨[entry]⟩⟩)
    (hnid : nid ≠ (twoSites i).daemon.selfId) (hentry : entry.nodeId = 3) (hi : Holds c i none) :
    Holds (move delay twoSites c ⟨now, .deliver ix⟩) i (some now) := by
  have hself : entry.nodeId ≠ (twoSites i).daemon.selfId := by
    rw [hentry]
    exact third_not_self i
  obtain ⟨r, hr, hid, hstamp⟩ := handover_record now source hnid hself
  rw [hentry] at hr hid
  refine ⟨r, ?_, hid, hstamp⟩
  have hi : (c.nodes i).state = ⟨∅, none⟩ := hi
  simp only [move, hc, Nat.le_add_right, ↓reduceIte, Cluster.onNode, Function.update_self, take,
    Bus.listen, hdec, hi, hr]

theorem deliver_other (delay : Duration) {c : Cluster 2} {now : SystemTime} {ix : Nat} {i j : Fin 2}
    {source : SocketAddr} {data : List UInt8} {held : Option SystemTime}
    (hc : c.wire[ix]? = some ⟨i, source, now, data⟩) (hj : j ≠ i) (h : Holds c j held) :
    Holds (move delay twoSites c ⟨now, .deliver ix⟩) j held := by
  apply h.congr
  simp only [move, hc, Nat.le_add_right, ↓reduceIte, Cluster.onNode, Function.update_of_ne hj]

theorem handover_holds (delay : Duration) {c : Cluster 2} (now : SystemTime) {t : SystemTime}
    {i j : Fin 2} (hij : j ≠ i) (hi : Holds c i none) (hj : Holds c j (some t)) :
    Holds (Run.exec (move delay twoSites) c (gossips now i j ++ [⟨now, .deliver i⟩])) i (some now) ∧
      Holds (Run.exec (move delay twoSites) c (gossips now i j ++ [⟨now, .deliver i⟩])) j
        (some t) := by
  have hi' := gossip_holds delay now j (gossip_holds delay now i hi)
  have hj' := gossip_holds delay now i hj
  obtain ⟨data, entry, hwire, hdec, hentry⟩ := gossip_wire delay now i hj'
  have hnid : (twoSites j).daemon.selfId ≠ (twoSites i).daemon.selfId :=
    fun he => hij (twoSites_distinct j i he)
  exact ⟨deliver_holds delay hwire hdec hnid hentry hi',
    deliver_other delay hwire hij (gossip_holds delay now j hj')⟩

/-- When node 3 was last heard of, before the `m`-th handover. -/
def stamp : Nat → Option SystemTime
  | 0 => none
  | m + 1 => some (clockAt (1500 * m))

theorem aged_stamp {u m : Nat} (hu : u < clockEnd) (hm : 1500 * m ≤ u + 1500) :
    aged (clockAt u) (stamp m) = if u < 1500 * m + 1500 then stamp m else none := by
  cases m with
  | zero => simp [stamp, aged]
  | succ m =>
    have hns : (clockAt (1500 * m)).ns = 1500 * m * 10 ^ 8 := clockAt_ns (by omega)
    have hiff : (clockAt u).ns < (clockAt (1500 * m)).ns + cleanupThreshold ↔
        u < 1500 * (m + 1) + 1500 := by
      rw [clockAt_ns hu, hns, cleanupThreshold, Duration.fromSecs]
      omega
    simp only [aged, stamp, Option.filter_some, hiff, decide_eq_true_eq]

theorem stamp_le {u m : Nat} (hm : 1500 * m ≤ u + 1500) {t : SystemTime} (h : stamp m = some t) :
    t ≤ clockAt u := by
  cases m with
  | zero => cases h
  | succ m =>
    cases h
    exact clockAt_mono (by omega)

theorem tenth_succ (u : Nat) : tenth (u + 1) = beats (clockAt (u + 1)) ++
    ((if (u + 1) % 5 = 0 then
      gossips (clockAt (u + 1)) (taker ((u + 1) / 1500)) (giver ((u + 1) / 1500)) else []) ++
    if (u + 1) % 1500 = 0 then [⟨clockAt (u + 1), .deliver (taker ((u + 1) / 1500))⟩] else []) := by
  simp [tenth]

theorem ticks_holds (delay : Duration) {c : Cluster 2} {u m : Nat} {i : Fin 2} (hu : u < clockEnd)
    (hm : 1500 * m ≤ u + 1500) (h : Holds c i (stamp m)) :
    Holds (Run.exec (move delay twoSites) c (beats (clockAt u))) i
      (if u < 1500 * m + 1500 then stamp m else none) := by
  rw [← aged_stamp hu hm]
  exact beats_holds h (fun t ht => stamp_le hm ht)

theorem gossips_holds {delay : Duration} {c : Cluster 2} (now : SystemTime) {i : Fin 2} (j k : Fin 2)
    {held : Option SystemTime} (h : Holds c i held) :
    Holds (Run.exec (move delay twoSites) c (gossips now j k)) i held :=
  gossip_holds delay now k (gossip_holds delay now j h)

/-- The heartbeat the first daemon hears at the start, and the second does not. -/
theorem hello_holds (delay : Duration) :
    Holds (move delay twoSites Cluster.start hello) (taker 0) (stamp 1) ∧
      Holds (move delay twoSites Cluster.start hello) (giver 0) (stamp 0) :=
  ⟨⟨_, rfl, rfl, rfl⟩, rfl⟩

/-- Right after a tenth of a second, one daemon has heard of node 3 within the last 150 s,
and the other one in the 150 s before, if at all. -/
theorem relay_holds (delay : Duration) (u : Nat) (hu : u < clockEnd) :
    Holds (Run.exec (move delay twoSites) Cluster.start (relay (u + 1))) (taker (u / 1500))
        (stamp (u / 1500 + 1)) ∧
      Holds (Run.exec (move delay twoSites) Cluster.start (relay (u + 1))) (giver (u / 1500))
        (stamp (u / 1500)) := by
  induction u with
  | zero =>
    obtain ⟨ht, hg⟩ := hello_holds delay
    have ht := ticks_holds delay hu (Nat.le_refl _) ht
    have hg := ticks_holds delay hu (Nat.zero_le _) hg
    rw [if_pos (by omega)] at ht hg
    exact ⟨gossips_holds _ _ _ ht, gossips_holds _ _ _ hg⟩
  | succ u ih =>
    obtain ⟨ht, hg⟩ := ih (by omega)
    rw [relay_succ, Run.exec_append]
    generalize Run.exec (move delay twoSites) Cluster.start (relay (u + 1)) = c at ht hg
    have ht := ticks_holds delay hu (by omega) ht
    have hg := ticks_holds delay hu (by omega) hg
    rw [if_pos (by omega)] at ht
    rw [tenth_succ, Run.exec_append]
    by_cases hm : (u + 1) % 1500 = 0
    · have hdiv : (u + 1) / 1500 = u / 1500 + 1 := by omega
      rw [if_neg (by omega)] at hg
      rw [if_pos (by omega : (u + 1) % 5 = 0), if_pos hm, hdiv, taker_succ, giver_succ]
      have hnow : stamp (u / 1500 + 1 + 1) = some (clockAt (u + 1)) := by
        rw [stamp]
        congr 2
        omega
      rw [hnow]
      exact handover_holds delay (clockAt (u + 1)) (giver_ne_taker _).symm hg ht
    · have hdiv : (u + 1) / 1500 = u / 1500 := by omega
      rw [if_pos (by omega)] at hg
      rw [if_neg hm, List.append_nil, hdiv]
      split
      · exact ⟨gossips_holds _ _ _ ht, gossips_holds _ _ _ hg⟩
      · exact ⟨ht, hg⟩

theorem mem_tenth {u : Nat} {e : Move 2} (h : e ∈ tenth u) :
    e.now = clockAt u ∧ (e = hello ∨ ∀ i source sentAt f, e.act ≠ .frame i source sentAt f) := by
  have hif : ∀ {p : Prop} [Decidable p] {l : List (Move 2)}, e ∈ (if p then l else []) →
      p ∧ e ∈ l := by
    intro p _ l hm
    split at hm
    · next hp => exact ⟨hp, hm⟩
    · cases hm
  rcases List.mem_append.mp h with h | h
  · obtain ⟨rfl, h⟩ := hif h
    obtain rfl := List.mem_singleton.mp h
    exact ⟨rfl, .inl rfl⟩
  rcases List.mem_append.mp h with h | h
  · have h : e ∈ [⟨clockAt u, .sample 0⟩, ⟨clockAt u, .scan 0⟩, ⟨clockAt u, .sample 1⟩,
      ⟨clockAt u, .scan 1⟩] := h
    simp only [List.mem_cons, List.not_mem_nil, or_false] at h
    rcases h with rfl | rfl | rfl | rfl <;> exact ⟨rfl, .inr (fun _ _ _ _ he => nomatch he)⟩
  rcases List.mem_append.mp h with h | h
  · obtain ⟨_, h⟩ := hif h
    simp only [gossips, List.mem_cons, List.not_mem_nil, or_false] at h
    rcases h with rfl | rfl <;> exact ⟨rfl, .inr (fun _ _ _ _ he => nomatch he)⟩
  · obtain ⟨_, h⟩ := hif h
    obtain rfl := List.mem_singleton.mp h
    exact ⟨rfl, .inr (fun _ _ _ _ he => nomatch he)⟩

theorem mem_relay {u : Nat} {e : Move 2} (h : e ∈ relay u) : ∃ v, v < u ∧ e ∈ tenth v := by
  obtain ⟨v, hv, he⟩ := List.mem_flatMap.mp h
  exact ⟨v, List.mem_range.mp hv, he⟩

theorem relay_ordered (u : Nat) : (relay u).Pairwise (fun a b => a.now ≤ b.now) := by
  rw [relay, List.pairwise_flatMap]
  refine ⟨?_, ?_⟩
  · intro v _
    apply List.pairwise_of_forall_mem_list
    intro a ha b hb
    rw [(mem_tenth ha).1, (mem_tenth hb).1]
    exact Nat.le_refl _
  · refine List.pairwise_lt_range.imp ?_
    intro v w hvw a ha b hb
    rw [(mem_tenth ha).1, (mem_tenth hb).1]
    exact clockAt_mono (Nat.le_of_lt hvw)

theorem relay_helloOnly (u : Nat) : HelloOnly (relay u) := by
  intro e he
  obtain ⟨v, _, hv⟩ := mem_relay he
  exact (mem_tenth hv).2

/-- The run of the two daemons for some tenths of a second. -/
def relayRun (delay : Duration) (u : Nat) : ClusterRun 2 delay where
  sites := twoSites
  distinct := twoSites_distinct
  moves := relay u
  ordered := relay_ordered u
  frames := (relay_helloOnly u).frames delay

theorem timesOf_append {k : Nat} (a b : List (Move k)) (p : Act k → Bool) :
    timesOf (a ++ b) p = timesOf a p ++ timesOf b p := by
  simp [timesOf]

/-- The times of what a daemon does by itself in a tenth of a second. -/
theorem timesOf_tenth (u : Nat) {p : Act 2 → Bool} (hf : p hello.act = false)
    (hd : ∀ ix, p (.deliver ix) = false) :
    timesOf (tenth u) p = timesOf (beats (clockAt u)) p ++
      if u % 5 = 0 then timesOf (gossips (clockAt u) (taker (u / 1500)) (giver (u / 1500))) p
      else [] := by
  have hfirst : timesOf (if u = 0 then [hello] else []) p = [] := by
    split <;> simp [timesOf, hf]
  have hlast : timesOf (if u ≠ 0 ∧ u % 1500 = 0 then
      [⟨clockAt u, .deliver (taker (u / 1500))⟩] else []) p = [] := by
    split <;> simp [timesOf, hd]
  rw [tenth, timesOf_append, timesOf_append, timesOf_append, hfirst, hlast, List.nil_append,
    List.append_nil]
  split <;> rfl

theorem timesOf_beats (now : SystemTime) (i : Fin 2) :
    timesOf (beats now) (isSample i) = [now.ns] ∧ timesOf (beats now) (isScan i) = [now.ns] := by
  match i with
  | 0 => exact ⟨rfl, rfl⟩
  | 1 => exact ⟨rfl, rfl⟩

theorem timesOf_tenth_gossip (u : Nat) (i : Fin 2) :
    timesOf (tenth u) (isGossip i) = if u % 5 = 0 then [(clockAt u).ns] else [] := by
  rw [timesOf_tenth u rfl (fun _ => rfl)]
  have hb : timesOf (beats (clockAt u)) (isGossip i) = [] := by
    rfl
  rw [hb, List.nil_append]
  unfold taker giver
  congr 1
  split
  · match i with
    | 0 => rfl
    | 1 => rfl
  · match i with
    | 0 => rfl
    | 1 => rfl

/-- What a daemon does in each tick it does every 100 ms. -/
theorem timesOf_relay {p : Act 2 → Bool} (hf : p hello.act = false)
    (hd : ∀ ix, p (.deliver ix) = false) (hg : ∀ j, p (.gossip j) = false)
    (hb : ∀ now, timesOf (beats now) p = [now.ns]) {u : Nat} (hu : u ≤ clockEnd) :
    timesOf (relay u) p = (List.range u).map (fun m => m * Duration.fromMillis 100) := by
  induction u with
  | zero => rfl
  | succ u ih =>
    have hgossips : timesOf (gossips (clockAt u) (taker (u / 1500)) (giver (u / 1500))) p = [] := by
      simp [timesOf, gossips, hg]
    rw [relay_succ, timesOf_append, ih (by omega), timesOf_tenth u hf hd, hgossips, ite_self,
      List.append_nil, hb, clockAt_ns (by omega), List.range_succ, List.map_append,
      List.map_singleton]
    rfl

theorem timesOf_relay_gossip (i : Fin 2) {g : Nat} (hg : 5 * g ≤ clockEnd) :
    timesOf (relay (5 * g)) (isGossip i) =
      (List.range g).map (fun m => m * Duration.fromMillis 500) := by
  induction g with
  | zero => rfl
  | succ g ih =>
    have hsplit : relay (5 * (g + 1)) = relay (5 * g) ++ tenth (5 * g) ++ tenth (5 * g + 1) ++
        tenth (5 * g + 2) ++ tenth (5 * g + 3) ++ tenth (5 * g + 4) := by
      rw [← relay_succ, ← relay_succ, ← relay_succ, ← relay_succ, ← relay_succ]
      rfl
    have hnow : (clockAt (5 * g)).ns = g * Duration.fromMillis 500 := by
      rw [clockAt_ns (by omega), Duration.fromMillis]
      omega
    rw [hsplit]
    simp only [timesOf_append, timesOf_tenth_gossip]
    rw [if_pos (by omega), if_neg (by omega), if_neg (by omega), if_neg (by omega),
      if_neg (by omega), ih (by omega), hnow, List.range_succ, List.map_append, List.map_singleton]
    simp only [List.append_nil]

theorem relay_before {u : Nat} (hu : u ≤ clockEnd) {e : Move 2} (h : e ∈ relay u) :
    e.now.ns < u * Duration.fromMillis 100 := by
  obtain ⟨v, hv, he⟩ := mem_relay h
  rw [(mem_tenth he).1, clockAt_ns (by omega), Duration.fromMillis]
  omega

theorem periodic_range {k : Nat} {period : Duration} {moves : List (Move k)} {times : List Nat}
    {n : Nat} (hp : 0 < period) (ht : times = (List.range n).map (fun m => m * period))
    (hb : ∀ e ∈ moves, e.now.ns < n * period) : Periodic period moves times := by
  have hn : times.length = n := by rw [ht, List.length_map, List.length_range]
  refine ⟨0, hp, ?_, ?_⟩
  · rw [hn, ht]
    apply List.map_congr_left
    intro m _
    rw [Nat.zero_add, Nat.mul_comm]
  · intro e he
    rw [hn, Nat.zero_add, Nat.mul_comm]
    exact hb e he

theorem relay_scheduled (delay : Duration) {g : Nat} (hg : 5 * g ≤ clockEnd) :
    Scheduled (relayRun delay (5 * g)) := by
  intro i
  have hsample : timesOf (relay (5 * g)) (isSample i) = _ :=
    timesOf_relay rfl (fun _ => rfl) (fun _ => rfl) (fun now => (timesOf_beats now i).1) hg
  have hscan : timesOf (relay (5 * g)) (isScan i) = _ :=
    timesOf_relay rfl (fun _ => rfl) (fun _ => rfl) (fun now => (timesOf_beats now i).2) hg
  have hbefore : ∀ e ∈ relay (5 * g), e.now.ns < g * Duration.fromMillis 500 := by
    intro e he
    have hperiods : 5 * g * Duration.fromMillis 100 = g * Duration.fromMillis 500 := by
      rw [Nat.mul_comm 5 g, Nat.mul_assoc]
      rfl
    exact hperiods ▸ relay_before hg he
  exact ⟨periodic_range (by decide) hsample (fun e he => relay_before hg he),
    hscan.trans hsample.symm,
    periodic_range (by decide) (timesOf_relay_gossip i hg) hbefore⟩

/-- Daemons with these thresholds have forgotten a silent node by then, in every run. -/
def ForgetsWithin (k : Nat) (delay suspect dead bound : Duration) : Prop :=
  ∀ (run : ClusterRun k delay) (n : UInt16) (quiet : SystemTime),
    (∀ i, (run.sites i).daemon.suspectThreshold = suspect ∧
      (run.sites i).daemon.deadThreshold = dead) →
    Scheduled run → Silent run n quiet → Forgotten run n quiet bound

/-- From the first handover on, either daemon has a record of node 3. -/
theorem relay_record (delay : Duration) (i : Fin 2) {u : Nat} (hu : u < clockEnd)
    (hfirst : 1500 ≤ u) : ∃ r,
      ((Run.exec (move delay twoSites) Cluster.start (relay (u + 1))).nodes i).state =
        ⟨AList.singleton 3 r, none⟩ := by
  obtain ⟨ht, hg⟩ := relay_holds delay u hu
  obtain ⟨m, hm⟩ : ∃ m, u / 1500 = m + 1 := ⟨u / 1500 - 1, by omega⟩
  rw [hm] at ht hg
  by_cases hi : i = taker (m + 1)
  · obtain ⟨r, hr, _⟩ := ht
    exact ⟨r, hi ▸ hr⟩
  · have hi : i = giver (m + 1) := by
      have := giver_ne_taker (m + 1)
      omega
    obtain ⟨r, hr, _⟩ := hg
    exact ⟨r, hi ▸ hr⟩

/-- In a tenth of a second without gossip, the last thing to happen is a tick of the second
daemon. -/
theorem relay_tick (delay : Duration) {u : Nat} (hu : u + 1 < clockEnd) (hfirst : 1500 ≤ u)
    (hq : (u + 1) % 5 ≠ 0) : ∃ pre,
      relay (u + 2) = pre ++ [⟨clockAt (u + 1), .scan 1⟩] ∧
      ((Run.exec (move delay twoSites) Cluster.start pre).nodes 1).state.sampled =
        some (clockAt (u + 1)) := by
  obtain ⟨r, hr⟩ := relay_record delay 1 (by omega) hfirst
  refine ⟨relay (u + 1) ++ (beat (clockAt (u + 1)) 0 ++ [⟨clockAt (u + 1), .sample 1⟩]), ?_, ?_⟩
  · rw [relay_succ, tenth_succ, if_neg hq, if_neg (by omega)]
    simp [beats, beat]
  · rw [Run.exec_append, Run.exec_append]
    rw [← exec_beat_other delay _ (clockAt (u + 1)) (by decide : (1 : Fin 2) ≠ 0)] at hr
    simp [move, Cluster.onNode, step, hr]

theorem relay_kept (delay : Duration) {bound : Nat}
    (hb : bound + Duration.fromSecs 600 ≤ 2 ^ 63 * 10 ^ 9) :
    ¬ ForgetsWithin 2 delay node1.suspectThreshold node1.deadThreshold bound := by
  intro h
  have hthresholds : ∀ i, (twoSites i).daemon.suspectThreshold = node1.suspectThreshold ∧
      (twoSites i).daemon.deadThreshold = node1.deadThreshold := by
    intro i
    match i with
    | 0 => exact ⟨rfl, rfl⟩
    | 1 => exact ⟨rfl, rfl⟩
  obtain ⟨g, hend, hfirst, hlate⟩ : ∃ g, 5 * (g + 1) ≤ clockEnd ∧ 1500 ≤ 5 * g + 3 ∧
      bound < (5 * g + 4) * 10 ^ 8 := by
    refine ⟨bound / (5 * 10 ^ 8) + 300, ?_, ?_, ?_⟩
    · apply Nat.le_of_mul_le_mul_right (c := 10 ^ 8) _ (by decide)
      calc 5 * (bound / (5 * 10 ^ 8) + 300 + 1) * 10 ^ 8
          = bound / (5 * 10 ^ 8) * (5 * 10 ^ 8) + 1505 * 10 ^ 8 := by omega
        _ ≤ bound + Duration.fromSecs 600 :=
          Nat.add_le_add (Nat.div_mul_le_self bound (5 * 10 ^ 8)) (by decide)
        _ ≤ 2 ^ 63 * 10 ^ 9 := hb
        _ = clockEnd * 10 ^ 8 := rfl
    · omega
    · omega
  have hforget := h (relayRun delay (5 * (g + 1))) 3 (clockAt 0) hthresholds
    (relay_scheduled delay hend) (HelloOnly.silent (relay_helloOnly _) rfl)
  obtain ⟨pre, hpre, hsampled⟩ := relay_tick delay (u := 5 * g + 3) (by omega) hfirst (by omega)
  have hout := hforget pre _ [] 1 _ hpre rfl hsampled (by
    rw [clockAt_ns (by omega), clockAt_ns (by omega)]
    omega)
  obtain ⟨r, hr⟩ := relay_record delay 1 (u := 5 * g + 4) (by omega) (by omega)
  apply hout
  have hafter : (((relayRun delay (5 * (g + 1))).after
      (pre ++ [⟨clockAt (5 * g + 3 + 1), .scan 1⟩])).nodes 1).state = ⟨AList.singleton 3 r, none⟩ := by
    rw [← hpre]
    exact hr
  rw [hafter]
  exact List.mem_singleton.mpr rfl

/-- Two daemons with the default thresholds can hand a silent node to each other for good,
so no bound that the clock outlasts holds for them. -/
theorem silent_node_kept : ¬ ∀ (k : Nat) (delay suspect dead : Duration), 2 ≤ k →
    ∃ bound, bound + Duration.fromSecs 600 ≤ 2 ^ 63 * 10 ^ 9 ∧
      ForgetsWithin k delay suspect dead bound := by
  intro h
  obtain ⟨bound, hb, hforget⟩ := h 2 0 node1.suspectThreshold node1.deadThreshold (Nat.le_refl 2)
  exact relay_kept 0 hb hforget

end Hivebus.Proofs.Forgetting
