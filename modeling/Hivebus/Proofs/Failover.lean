import Hivebus.Proofs.Heartbeats

namespace Hivebus.Proofs.Failover
open Lib Proto Bus ControlView Provenance Suspicion Heartbeats

variable {ι : Type}

/-- The id of a daemon that runs. -/
def Running (w : Network ι) (n : UInt16) : Prop :=
  ∃ j q, w.procs j = some q ∧ q.daemon.selfId = n

/-- Nobody of this id is about. -/
def othersCreed (n : UInt16) : Creed where
  born := fun d => d.selfId ≠ n
  source := fun _ => True
  record := fun _ _ => True
  entry := fun _ => True

/-- Nobody of this id is about, and nobody holds it Alive. -/
def goneCreed (n : UInt16) : Creed where
  born := fun d => d.selfId ≠ n
  source := fun _ => True
  record := fun k r => k = n → r.state ≠ .alive
  entry := fun e => e.nodeId = n → e.state ≠ .alive

theorem othersCreed_closed (n : UInt16) : (othersCreed n).Closed where
  news := fun _ _ _ _ _ _ _ _ _ => trivial
  spread := fun _ _ _ _ _ => trivial

theorem goneCreed_closed (n : UInt16) : (goneCreed n).Closed where
  news := by
    intro now source x r r' _ hx hr h hn
    cases x with
    | heartbeat nid pl =>
      obtain ⟨d, hd, hid, _⟩ := hx
      exact absurd (hid.trans hn) hd
    | announce nid pl =>
      obtain ⟨d, hd, hid, _⟩ := hx
      exact absurd (hid.trans hn) hd
    | leave nid pl => exact hx.elim
    | gossip entry =>
      cases h
      have hold : (r.getD (gossipRecord now source entry)).state ≠ .alive := by
        cases r with
        | none => exact hx hn
        | some e => exact hr e rfl hn
      unfold absorb
      split
      · exact hx hn
      · exact hold
  spread := by
    intro k r ms hid hr hn
    exact hr (hid.symm.trans hn)

/-- A scan gives nobody back his life. -/
theorem goneCreed_spares (n : UInt16) (t : SystemTime) (p : Process) :
    (goneCreed n).Spares t p := by
  intro k r _ _ hk b hn
  have hr := hk hn
  unfold downgrade
  split
  · simp
  · split
    · simp
    · exact hr

/-- What nobody of this id has sent and is no gossip says nothing of it. -/
theorem sends_gone {n : UInt16} {dg : Datagram} (h : (othersCreed n).Sends dg)
    (hg : ∀ nid pl, decodeFrame dg.data ≠ some ⟨nid, .gossip pl⟩) : (goneCreed n).Sends dg := by
  obtain ⟨hs, hfits, ⟨nid, msg⟩, hf, hu⟩ := h
  refine ⟨hs, hfits, ⟨nid, msg⟩, hf, hu.1, ?_⟩
  cases msg with
  | gossip pl => exact absurd hf (hg nid pl)
  | heartbeat pl => exact hu.2
  | announce pl => exact hu.2
  | leave pl => exact hu.2
  | ignored => exact hu.2

variable [DecidableEq ι] {hosts : ι → Host} {es : List (Happening ι)} {period delay : Duration}
  {c : Creed}

/-- Datagrams a step sends: they are in line with whatever those who send are in line with. -/
def Uttered (hosts : ι → Host) (w : Network ι) (e : Happening ι) (new : List Datagram) : Prop :=
  ∀ c : Creed, c.Closed → (∀ i, c.source (hosts i).source) →
    (∀ i p, (Network.step hosts w e).procs i = some p → c.born p.daemon) →
    (∀ i ord ms p, e.doing = .gossip i ord ms → w.procs i = some p → c.Keeps p) →
    ∀ dg ∈ new, c.Sends dg

theorem uttered_nil (hosts : ι → Host) (w : Network ι) (e : Happening ι) : Uttered hosts w e [] :=
  fun _ _ _ _ _ _ h => absurd h List.not_mem_nil

theorem sends_toList {source : SocketAddr} {data : Option (List UInt8)}
    (h : ∀ bs, data = some bs → c.Sends ⟨source, bs⟩) :
    ∀ dg ∈ (data.map (Datagram.mk source)).toList, c.Sends dg := by
  intro dg hdg
  obtain ⟨bs, hbs, rfl⟩ := Option.map_eq_some_iff.mp (Option.mem_toList.mp hdg)
  exact h bs hbs

theorem step_sends (hosts : ι → Host) (w : Network ι) (e : Happening ι) :
    ∃ new, (Network.step hosts w e).sent = new ++ w.sent ∧ Uttered hosts w e new := by
  have silent : (Network.step hosts w e).sent = w.sent →
      ∃ new, (Network.step hosts w e).sent = new ++ w.sent ∧ Uttered hosts w e new :=
    fun h => ⟨[], h, uttered_nil hosts w e⟩
  obtain ⟨now, doing⟩ := e
  cases doing with
  | boot i =>
    cases hm : main (hosts i) now with
    | error msg => exact silent (by simp only [Network.step, Network.boot, hm])
    | ok d =>
      refine ⟨((announce d).map (Datagram.mk (hosts i).source)).toList,
        by simp only [Network.step, Network.boot, hm, Network.send], ?_⟩
      intro c _ hsource hborn _
      refine sends_toList (fun bs hbs => announce_sends (hborn i (.start d) ?_) (hsource i) hbs)
      simp only [Network.step, Network.boot, hm, Network.send, Function.update_self]
  | halt i => exact silent rfl
  | heartbeat i =>
    cases hp : w.procs i with
    | none => exact silent (by simp only [Network.step, hp])
    | some p =>
      let data := (heartbeatRound p.daemon (epochMs now) p.heartbeatSeq).2
      refine ⟨(data.map (Datagram.mk (hosts i).source)).toList,
        by simp only [Network.step, hp, Network.send, Network.onProcess, data], ?_⟩
      intro c _ hsource hborn _
      have hself := hborn i { p with heartbeatSeq := (heartbeatRound p.daemon (epochMs now)
        p.heartbeatSeq).1 } (by simp [Network.step, Network.send, Network.onProcess, hp])
      exact sends_toList (fun bs hbs => heartbeat_sends hself (hsource i) hbs)
  | gossip i ord ms =>
    cases hp : w.procs i with
    | none => exact silent (by simp only [Network.step, hp])
    | some p =>
      let data := (gossipRound ord p.daemon ms p.gossipSeq p.state.members).2
      refine ⟨(data.map (Datagram.mk (hosts i).source)).toList,
        by simp only [Network.step, hp, Network.send, Network.onProcess, data], ?_⟩
      intro c hc hsource _ hgossip
      exact sends_toList (fun bs hbs => gossip_sends hc (hgossip i ord ms p rfl hp) (hsource i) hbs)
  | sample i => exact silent rfl
  | scan i ord => exact silent rfl
  | deliver ix i =>
    refine silent ?_
    simp only [Network.step]
    split <;> rfl

/-- What a step makes of a daemon that is in line. -/
theorem step_keeps_creed (hc : c.Closed) {w : Network ι} {e : Happening ι} {i : ι} {q : Process}
    (hq : (Network.step hosts w e).procs i = some q) (hp : ∀ p, w.procs i = some p → c.Keeps p)
    (hboot : e.doing = .boot i → c.born q.daemon)
    (hscan : ∀ t p, c.Spares t p)
    (hrecv : ∀ ix dg, e.doing = .deliver ix i → w.sent[ix]? = some dg → c.Sends dg) :
    c.Keeps q := by
  cases step_moved hq with
  | booted d boots settled => exact start_keeps (hboot boots)
  | kept p _ ran daemon state stays =>
    have hk := hp p ran
    exact ⟨daemon ▸ hk.born, by rw [daemon, state]; exact hk.wellFormed,
      by rw [state]; exact hk.records⟩
  | sampled p ran samples => exact sample_keeps (hp p ran)
  | scanned p ord ran scans => exact scan_keeps (hp p ran) (fun t _ => hscan t p)
  | received p ix dg ran delivers sent =>
    exact deliver_keeps hc (hp p ran) (hrecv ix dg delivers sent)

/-- What was sent from one event of a run on until another. -/
def sentSince (hosts : ι → Host) (es : List (Happening ι)) (a m : Nat) : List Datagram :=
  (Before hosts es m).sent.take ((Before hosts es m).sent.length - (Before hosts es a).sent.length)

theorem sent_grows (hosts : ι → Host) (es : List (Happening ι)) {a m : Nat} (ham : a ≤ m)
    (hm : m ≤ es.length) : (Before hosts es a).sent.length ≤ (Before hosts es m).sent.length := by
  induction m, ham using Nat.le_induction with
  | base => exact Nat.le_refl _
  | succ m ham ih =>
    obtain ⟨new, hnew, _⟩ := step_sends hosts (Before hosts es m) (es.get ⟨m, hm⟩)
    have hsucc : Before hosts es (m + 1) =
        Network.step hosts (Before hosts es m) (es.get ⟨m, hm⟩) := before_succ hosts ⟨m, hm⟩
    rw [hsucc, hnew, List.length_append]
    exact Nat.le_trans (ih (Nat.le_of_succ_le hm)) (Nat.le_add_left _ _)

theorem sentSince_succ (hc : c.Closed) (hsource : ∀ i, c.source (hosts i).source) {a : Nat}
    {m : Fin es.length} (ham : a ≤ m)
    (hborn : ∀ i p, (Before hosts es (m + 1)).procs i = some p → c.born p.daemon)
    (hgossip : ∀ i ord ms p, (es.get m).doing = .gossip i ord ms →
      (Before hosts es m).procs i = some p → c.Keeps p)
    (hold : ∀ dg ∈ sentSince hosts es a m, c.Sends dg) :
    ∀ dg ∈ sentSince hosts es a (m + 1), c.Sends dg := by
  obtain ⟨new, hnew, huttered⟩ := step_sends hosts (Before hosts es m) (es.get m)
  have hgrown := sent_grows hosts es ham (Nat.le_of_lt m.isLt)
  rw [before_succ] at hborn
  intro dg hdg
  rw [sentSince, before_succ, hnew, List.length_append, Nat.add_sub_assoc hgrown,
    List.take_length_add_append] at hdg
  rcases List.mem_append.mp hdg with h | h
  · exact huttered c hc hsource hborn hgossip dg h
  · exact hold dg h

/-- What is sent since some event is in line with what all are in line with who run since
and who gossip since. -/
theorem sentSince_sends (hc : c.Closed) (hsource : ∀ i, c.source (hosts i).source) {a m : Nat}
    (ham : a ≤ m) (hm : m ≤ es.length)
    (hborn : ∀ x : Fin es.length, a ≤ x → x.val < m → ∀ i p,
      (Before hosts es (x + 1)).procs i = some p → c.born p.daemon)
    (hgossip : ∀ x : Fin es.length, a ≤ x → x.val < m → ∀ i ord ms p,
      (es.get x).doing = .gossip i ord ms → (Before hosts es x).procs i = some p → c.Keeps p) :
    ∀ dg ∈ sentSince hosts es a m, c.Sends dg := by
  induction m, ham using Nat.le_induction with
  | base =>
    intro dg hdg
    rw [sentSince, Nat.sub_self, List.take_zero] at hdg
    cases hdg
  | succ m ham ih =>
    have hlt := Nat.lt_succ_self m
    exact sentSince_succ (m := ⟨m, hm⟩) hc hsource ham (hborn ⟨m, hm⟩ ham hlt)
      (hgossip ⟨m, hm⟩ ham hlt) (ih (Nat.le_of_succ_le hm)
        (fun x hx hxm => hborn x hx (Nat.lt_succ_of_lt hxm))
        (fun x hx hxm => hgossip x hx (Nat.lt_succ_of_lt hxm)))

/-- Nothing is taken in later than `delay` after it was sent. -/
def Fresh (hosts : ι → Host) (es : List (Happening ι)) (delay : Duration) : Prop :=
  ∀ (a m : Fin es.length) (ix : Nat) (i : ι) (dg : Datagram),
    (es.get a).now.ns + delay < (es.get m).now.ns → (es.get m).doing = .deliver ix i →
    (Before hosts es m).sent[ix]? = some dg →
    ix + (Before hosts es a).sent.length < (Before hosts es m).sent.length

/-- A scan at a time at which a record of up to `limit` is overdue. -/
def Looked (hosts : ι → Host) (es : List (Happening ι)) (limit : Nat) (i : ι) (m : Fin es.length) :
    Prop :=
  ∃ ord p t, (es.get m).doing = .scan i ord ∧ (Before hosts es m).procs i = some p ∧
    p.state.sampled = some t ∧ limit + p.daemon.suspectThreshold < t.ns

/-- In front of this event the daemon has scanned at such a time, and since then it has taken
in no gossip. -/
def LookedOver (hosts : ι → Host) (es : List (Happening ι)) (limit : Nat) (i : ι)
    (c : Fin es.length) : Prop :=
  ∃ m : Fin es.length, m < c ∧ Looked hosts es limit i m ∧
    ∀ x : Fin es.length, m < x → x < c → ∀ ix dg nid pl, (es.get x).doing = .deliver ix i →
      (Before hosts es x).sent[ix]? = some dg → decodeFrame dg.data ≠ some ⟨nid, .gossip pl⟩

/-- A node that is lost: it was up from `k` to `l`, long enough to be known to all who were
about, and is gone for good from `g` on. From `a` to `b` nobody gossips who has not looked his
table over since he last took in gossip, and everybody scans once more when all that was sent
before has come in. Until then nobody new joins, and no record of it is old enough to be
dropped. -/
structure Lost (hosts : ι → Host) (es : List (Happening ι)) (period delay : Duration) (n : UInt16)
    (k l g a b : Fin es.length) : Prop where
  order : k < l ∧ l ≤ g ∧ g ≤ a ∧ a < b
  ran : ∃ j p, (Before hosts es k).procs j = some p ∧ p.daemon.selfId = n ∧ Through hosts es k l j
  known : (es.get k).now.ns + period + delay < (es.get l).now.ns
  closed : ∀ x : Fin es.length, k ≤ x → x < b → ∀ i, (es.get x).doing ≠ .boot i
  gone : ∀ x : Nat, g ≤ x → x ≤ es.length → ¬ Running (Before hosts es x) n
  fresh : Fresh hosts es delay
  careful : ∀ (c : Fin es.length) i ord ms, a ≤ c → c < b → (es.get c).doing = .gossip i ord ms →
    LookedOver hosts es ((es.get g).now.ns + delay) i c
  drained : (es.get a).now.ns + delay < (es.get b).now.ns
  scanned : ∀ i, Up hosts es b i → ∃ m : Fin es.length, m < b ∧
    (es.get a).now.ns + delay < (es.get m).now.ns ∧ Looked hosts es ((es.get g).now.ns + delay) i m
  soon : (es.get b).now.ns + period + delay < (es.get l).now.ns + cleanupThreshold

variable {n : UInt16} {k l g a b : Fin es.length}

theorem Fresh.since (h : Fresh hosts es delay) {a m : Fin es.length} {ix : Nat} {i : ι}
    {dg : Datagram} (hlate : (es.get a).now.ns + delay < (es.get m).now.ns)
    (hdel : (es.get m).doing = .deliver ix i) (hsent : (Before hosts es m).sent[ix]? = some dg) :
    dg ∈ sentSince hosts es a m := by
  have hix := h a m ix i dg hlate hdel hsent
  apply List.mem_of_getElem? (i := ix)
  rw [sentSince, List.getElem?_take_of_lt (by omega)]
  exact hsent

/-- Who runs after the node is gone is somebody else. -/
theorem Lost.other (h : Lost hosts es period delay n k l g a b) {x : Nat} (hx : g ≤ x)
    (hlen : x ≤ es.length) {i : ι} {p : Process} (hp : (Before hosts es x).procs i = some p) :
    p.daemon.selfId ≠ n :=
  fun hid => h.gone x hx hlen ⟨i, p, hp, hid⟩

/-- Who is up while nobody joins has been up since. -/
theorem Lost.through (h : Lost hosts es period delay n k l g a b) {c : Nat} (hkc : k ≤ c)
    (hcb : c ≤ b) {i : ι} (hup : Up hosts es c i) : Through hosts es k c i := by
  have hlen : c ≤ es.length := Nat.le_trans hcb (Nat.le_of_lt b.isLt)
  induction c, hkc using Nat.le_induction with
  | base => exact ⟨hup, fun x hx hxk => absurd hxk (Nat.not_lt.mpr hx)⟩
  | succ c hkc ih =>
    have hc : c < es.length := hlen
    obtain ⟨q, hq⟩ := Option.isSome_iff_exists.mp hup
    rw [before_succ hosts ⟨c, hc⟩] at hq
    have hboot := h.closed ⟨c, hc⟩ hkc hcb i
    obtain ⟨hup, hhalt⟩ := (step_moved hq).ran hboot
    exact (ih (Nat.le_of_succ_le hcb) hup (Nat.le_of_lt hc)).succ (l := ⟨c, hc⟩) ⟨hboot, hhalt⟩

theorem Looked.late {limit : Nat} {i : ι} {m : Fin es.length} (hm : Looked hosts es limit i m)
    (h : Steady hosts es period delay) : limit < (es.get m).now.ns := by
  obtain ⟨ord, p, t, _, hp, ht, hlate⟩ := hm
  obtain ⟨a, ham, rfl⟩ := sampled_before (Nat.le_of_lt m.isLt) hp ht
  have hle := h.clock_le (k := a) (l := m) (Nat.le_of_lt ham)
  exact Nat.lt_of_le_of_lt (Nat.le_add_right _ _) (Nat.lt_of_lt_of_le hlate hle)

/-- Once its last word has come in, nothing that comes in is from the node itself. -/
theorem Lost.others_sent (h : Lost hosts es period delay n k l g a b) {m : Nat} (hm : g ≤ m)
    (hlen : m ≤ es.length) : ∀ dg ∈ sentSince hosts es g m, (othersCreed n).Sends dg := by
  refine sentSince_sends (othersCreed_closed n) (fun _ => trivial) hm hlen ?_ ?_
  · intro x hgx _ i p hp
    exact h.other (Nat.le_succ_of_le hgx) x.isLt hp
  · intro x hgx _ i ord ms p _ hp
    exact ⟨h.other hgx (Nat.le_of_lt x.isLt) hp, (before_sourced hosts es hp).wellFormed,
      fun _ _ _ => trivial⟩

/-- Whoever runs until `b` has the node on record. -/
theorem Lost.on_record (h : Lost hosts es period delay n k l g a b)
    (hs : Steady hosts es period delay)
    (hprompt : Run.Along (Network.step hosts) Prompt Network.start es) {c : Nat} (hgc : g ≤ c)
    (hcb : c ≤ b) {i : ι} {p : Process} (hp : (Before hosts es c).procs i = some p) :
    n ∈ p.state.members := by
  obtain ⟨hkl, hlg, hga, hab⟩ := h.order
  have hlen : c ≤ es.length := Nat.le_trans hcb (Nat.le_of_lt b.isLt)
  have hlc : l.val ≤ c := Nat.le_trans hlg hgc
  have hkc : k.val ≤ c := Nat.le_trans (Nat.le_of_lt hkl) hlc
  obtain ⟨j, q, hq, rfl, hj⟩ := h.ran
  exact hs.known hprompt hkl hlc (Nat.le_succ_of_le hcb) (h.through hkc hcb (up_of_procs hp)) hj
    h.known h.soon hp hq (h.other hgc hlen hp).symm

/-- No record of the node is stamped later than with its last word. -/
theorem Lost.stamp_le (h : Lost hosts es period delay n k l g a b)
    (hs : Steady hosts es period delay)
    (hprompt : Run.Along (Network.step hosts) Prompt Network.start es) {c : Nat} (hcb : c ≤ b)
    {i : ι} {p : Process} {r : NodeInfo} (hp : (Before hosts es c).procs i = some p)
    (hr : p.state.members.lookup n = some r) : r.lastSeen.ns ≤ (es.get g).now.ns + delay := by
  have hlen : c ≤ es.length := Nat.le_trans hcb (Nat.le_of_lt b.isLt)
  obtain ⟨x, hxc, hx, hi, ⟨q, ix, dg, f, hdated⟩, _⟩ := stamped hlen hp hr
  have hxs : (es.get x).now.ns = r.lastSeen.ns := congrArg SystemTime.ns hx
  by_contra hlate
  have hgx : g < x := hs.lt_of_now_lt (by omega)
  have hsent := h.fresh.since (a := g) (by omega) hdated.delivers hdated.sent
  obtain ⟨_, hfits, f', hf', ⟨d, hd, hid⟩, _⟩ :=
    h.others_sent (Nat.le_of_lt hgx) (Nat.le_of_lt x.isLt) dg hsent
  have hframe := hdated.frame
  rw [List.take_of_length_le (Nat.le_trans hfits (by decide)), hf'] at hframe
  cases hframe
  rcases hdated.why with hown | hnew
  · exact hd (hid.trans hown)
  · exact hnew (h.on_record hs hprompt (Nat.le_of_lt hgx)
      (Nat.le_trans (Nat.le_of_lt hxc) hcb) hdated.ran)

/-- A daemon that scans late enough takes the node for Alive no longer. -/
theorem Lost.looked_keeps (h : Lost hosts es period delay n k l g a b)
    (hs : Steady hosts es period delay)
    (hprompt : Run.Along (Network.step hosts) Prompt Network.start es) {m : Fin es.length}
    (hmb : m < b) {i : ι} (hm : Looked hosts es ((es.get g).now.ns + delay) i m) {q : Process}
    (hq : (Before hosts es (m + 1)).procs i = some q) : (goneCreed n).Keeps q := by
  have hlate := hm.late hs
  obtain ⟨ord, p, t, hd, hp, ht, hover⟩ := hm
  have hgm : g < m := hs.lt_of_now_lt (Nat.lt_of_le_of_lt (Nat.le_add_right _ _) hlate)
  refine ⟨h.other (Nat.le_succ_of_le (Nat.le_of_lt hgm)) m.isLt hq,
    (before_sourced hosts es hq).wellFormed, ?_⟩
  intro k' r' hr' hk'
  subst hk'
  have hstep : q = p.step ord ⟨(es.get m).now, .scan⟩ := by
    rw [before_succ, Network.step] at hq
    simp only [hd, Network.onProcess, Function.update_self, hp, Option.map_some,
      Option.some.injEq] at hq
    exact hq.symm
  rw [hstep] at hr'
  simp only [Process.step, Bus.step, ht, lookup_scan] at hr'
  obtain ⟨s, hs', rfl⟩ := Option.map_eq_some_iff.mp hr'
  obtain ⟨r, hf, rfl⟩ := Option.map_eq_some_iff.mp hs'
  obtain ⟨hr, hage⟩ := Option.filter_eq_some_iff.mp hf
  have hold := h.stamp_le hs hprompt (Nat.le_of_lt hmb) hp hr
  have hyoung : r.lastSeen ≤ t := by
    have hns : r.lastSeen.ns ≤ t.ns := by omega
    exact hns
  have hsilent : r.lastSeen.ns + p.daemon.suspectThreshold < t.ns :=
    Nat.lt_of_le_of_lt (Nat.add_le_add_right hold _) hover
  have hoverdue : Overdue p.daemon t r := by
    refine ⟨by simpa using hage, .inl ?_⟩
    rw [age_eq hyoung]
    exact Nat.lt_sub_of_add_lt (by rwa [Nat.add_comm])
  exact downgrade_overdue hoverdue

/-- A daemon in line stays so as long as what it takes in is. -/
theorem through_keeps (hc : c.Closed) (hspares : ∀ t p, c.Spares t p) {i : ι} {m l : Nat}
    (hi : Through hosts es m l i) {p : Process} (hp : (Before hosts es m).procs i = some p)
    (hk : c.Keeps p) (hml : m ≤ l) (hl : l ≤ es.length)
    (hrecv : ∀ x : Fin es.length, m ≤ x → x.val < l → ∀ ix dg, (es.get x).doing = .deliver ix i →
      (Before hosts es x).sent[ix]? = some dg → c.Sends dg) :
    ∀ q, (Before hosts es l).procs i = some q → c.Keeps q := by
  induction l, hml using Nat.le_induction with
  | base =>
    intro q hq
    rw [hp] at hq
    cases hq
    exact hk
  | succ l hml ih =>
    have hll : l ≤ es.length := Nat.le_of_succ_le hl
    have hprev := ih (hi.sub (Nat.le_refl _) (Nat.le_succ l) (Nat.le_succ_of_le hml)
      (Nat.le_trans hml hll)) hll (fun x hx hxl => hrecv x hx (Nat.lt_succ_of_lt hxl))
    intro q hq
    rw [before_succ hosts ⟨l, hl⟩] at hq
    exact step_keeps_creed hc hq hprev
      (fun hboot => absurd hboot (hi.stays ⟨l, hl⟩ hml (Nat.lt_succ_self l)).1) hspares
      (hrecv ⟨l, hl⟩ hml (Nat.lt_succ_self l))

/-- Who has scanned late enough and taken in nothing false since holds the node Alive no
longer. -/
theorem Lost.keeps_since (h : Lost hosts es period delay n k l g a b)
    (hs : Steady hosts es period delay)
    (hprompt : Run.Along (Network.step hosts) Prompt Network.start es) {m c : Fin es.length}
    (hmc : m < c) (hcb : c ≤ b) {i : ι} {p : Process} (hp : (Before hosts es c).procs i = some p)
    (hm : Looked hosts es ((es.get g).now.ns + delay) i m)
    (hrecv : ∀ x : Fin es.length, m < x → x < c → ∀ ix dg, (es.get x).doing = .deliver ix i →
      (Before hosts es x).sent[ix]? = some dg → (goneCreed n).Sends dg) :
    (goneCreed n).Keeps p := by
  obtain ⟨hkl, hlg, _, _⟩ := h.order
  have hkg : k.val ≤ g.val := Nat.le_trans (Nat.le_of_lt hkl) hlg
  have hgm : g < m := hs.lt_of_now_lt (Nat.lt_of_le_of_lt (Nat.le_add_right _ _) (hm.late hs))
  have hup : Up hosts es c i := up_of_procs hp
  have hkm : k.val ≤ m.val + 1 := Nat.le_succ_of_le (Nat.le_trans hkg (Nat.le_of_lt hgm))
  have hclen : c.val ≤ es.length := Nat.le_of_lt c.isLt
  have hi := (h.through (Nat.le_trans hkm hmc) hcb hup).sub hkm (Nat.le_refl _) hmc m.isLt
  obtain ⟨q, hq⟩ := Option.isSome_iff_exists.mp hi.up
  exact through_keeps (goneCreed_closed n) (goneCreed_spares n) hi hq
    (h.looked_keeps hs hprompt (Nat.lt_of_lt_of_le hmc hcb) hm hq) hmc hclen
    (fun x hx hxc => hrecv x hx hxc) p hp

/-- What is sent while everybody is careful does not have the node Alive. -/
theorem Lost.careful_sends (h : Lost hosts es period delay n k l g a b)
    (hs : Steady hosts es period delay)
    (hprompt : Run.Along (Network.step hosts) Prompt Network.start es) {m : Nat} (ham : a ≤ m)
    (hmb : m ≤ b) : ∀ dg ∈ sentSince hosts es a m, (goneCreed n).Sends dg := by
  have hga : g.val ≤ a.val := h.order.2.2.1
  have hlen : m ≤ es.length := Nat.le_trans hmb (Nat.le_of_lt b.isLt)
  refine sentSince_sends (goneCreed_closed n) (fun _ => trivial) ham hlen ?_ ?_
  · intro x hax _ i p hp
    exact h.other (Nat.le_succ_of_le (Nat.le_trans hga hax)) x.isLt hp
  · intro x hax hxm i ord ms p hd hp
    have hxb : x.val < b.val := Nat.lt_of_lt_of_le hxm hmb
    obtain ⟨m', hmx, hlooked, hquiet⟩ := h.careful x i ord ms hax hxb hd
    refine h.keeps_since hs hprompt hmx (Nat.le_of_lt hxb) hp hlooked ?_
    intro y hmy hyx ix dg hdel hsent
    have hlate : (es.get g).now.ns + delay < (es.get y).now.ns :=
      Nat.lt_of_lt_of_le (hlooked.late hs) (hs.clock_le (Nat.le_of_lt hmy))
    have hgy : g < y := hs.lt_of_now_lt (Nat.lt_of_le_of_lt (Nat.le_add_right _ _) hlate)
    exact sends_gone (h.others_sent (Nat.le_of_lt hgy) (Nat.le_of_lt y.isLt) dg
      (h.fresh.since hlate hdel hsent)) (fun nid pl => hquiet y hmy hyx ix dg nid pl hdel hsent)

/-- From then on the node is Alive nowhere. -/
theorem Lost.holds (h : Lost hosts es period delay n k l g a b) (hs : Steady hosts es period delay)
    (hprompt : Run.Along (Network.step hosts) Prompt Network.start es) {c : Nat} (hbc : b ≤ c)
    (hlen : c ≤ es.length) :
    (∀ i p, (Before hosts es c).procs i = some p → (goneCreed n).Keeps p) ∧
      ∀ dg ∈ sentSince hosts es a c, (goneCreed n).Sends dg := by
  obtain ⟨_, _, hga, hab⟩ := h.order
  have hgb : g.val ≤ b.val := Nat.le_trans hga (Nat.le_of_lt hab)
  induction c, hbc using Nat.le_induction with
  | base =>
    refine ⟨?_, h.careful_sends hs hprompt (Nat.le_of_lt hab) (Nat.le_refl _)⟩
    intro i p hp
    have hup : Up hosts es b i := up_of_procs hp
    obtain ⟨m, hmb, hdrained, hlooked⟩ := h.scanned i hup
    refine h.keeps_since hs hprompt hmb (Nat.le_refl _) hp hlooked ?_
    intro x hmx hxb ix dg hdel hsent
    have hlate := Nat.lt_of_lt_of_le hdrained (hs.clock_le (Nat.le_of_lt hmx))
    have hax : a < x := hs.lt_of_now_lt (Nat.lt_of_le_of_lt (Nat.le_add_right _ _) hlate)
    exact h.careful_sends hs hprompt (Nat.le_of_lt hax) (Nat.le_of_lt hxb) dg
      (h.fresh.since hlate hdel hsent)
  | succ c hbc ih =>
    obtain ⟨hprocs, hsends⟩ := ih (Nat.le_of_succ_le hlen)
    have hc : c < es.length := hlen
    have hgc : g.val ≤ c := Nat.le_trans hgb hbc
    have hac : a.val ≤ c := Nat.le_trans (Nat.le_of_lt hab) hbc
    have hlate : (es.get a).now.ns + delay < (es.get ⟨c, hc⟩).now.ns :=
      Nat.lt_of_lt_of_le h.drained (hs.clock_le (k := b) (l := ⟨c, hc⟩) hbc)
    refine ⟨?_, ?_⟩
    · intro i q hq
      have hother := h.other (Nat.le_succ_of_le hgc) hlen hq
      rw [before_succ hosts ⟨c, hc⟩] at hq
      refine step_keeps_creed (goneCreed_closed n) hq (hprocs i) (fun _ => hother)
        (goneCreed_spares n) ?_
      intro ix dg hdel hsent
      exact hsends dg (h.fresh.since (m := ⟨c, hc⟩) hlate hdel hsent)
    · refine sentSince_succ (m := ⟨c, hc⟩) (goneCreed_closed n) (fun _ => trivial) hac ?_
        (fun i _ _ p _ hp => hprocs i p hp) hsends
      exact fun i p hp => h.other (Nat.le_succ_of_le hgc) hlen hp

/-- A node that is lost is found out, and stays so: from `b` on no table has it Alive, and
neither has any gossip sent since `a`, whatever rumours were about before. -/
theorem rumour_dies (hosts : ι → Host) (es : List (Happening ι)) {period delay : Duration}
    (hs : Steady hosts es period delay)
    (hprompt : Run.Along (Network.step hosts) Prompt Network.start es) (n : UInt16)
    (k l g a b : Fin es.length) (h : Lost hosts es period delay n k l g a b) (c : Nat) (hbc : b ≤ c)
    (hlen : c ≤ es.length) :
    (∀ i p r, (Before hosts es c).procs i = some p → p.state.members.lookup n = some r →
      r.state ≠ .alive) ∧
    ∀ dg ∈ sentSince hosts es a c, ∀ nid pl, decodeFrame dg.data = some ⟨nid, .gossip pl⟩ →
      ∀ e ∈ pl.entries, e.nodeId = n → e.state ≠ .alive := by
  obtain ⟨hprocs, hsends⟩ := h.holds hs hprompt hbc hlen
  refine ⟨?_, ?_⟩
  · intro i p r hp hr
    exact (hprocs i p hp).records n r hr rfl
  · intro dg hdg nid pl hf e he
    obtain ⟨_, _, f, hf', hu⟩ := hsends dg hdg
    rw [hf] at hf'
    cases hf'
    exact hu.2 e he

theorem takeover_looked : Looked pair takeover (600 * 10 ^ 6) true ⟨18, by decide⟩ := by
  have check : ((Before pair takeover 18).procs true).any (fun p => p.state.sampled.any (fun t =>
      decide (600 * 10 ^ 6 + p.daemon.suspectThreshold < t.ns))) = true := by decide +kernel
  obtain ⟨p, hp, hs⟩ := (Option.any_eq_true _ _).mp check
  obtain ⟨t, ht, hlate⟩ := (Option.any_eq_true _ _).mp hs
  exact ⟨.newest, p, t, rfl, hp, ht, of_decide_eq_true hlate⟩

theorem takeover_fresh : Fresh pair takeover (100 * 10 ^ 6) := by
  have early : ∀ a m : Fin takeover.length, m.val ∈ [4, 5] →
      ¬ (takeover.get a).now.ns + 100 * 10 ^ 6 < (takeover.get m).now.ns := by decide
  have late : ∀ a m : Fin takeover.length, m.val ∈ [8, 9] →
      (takeover.get a).now.ns + 100 * 10 ^ 6 < (takeover.get m).now.ns →
      m.val - 8 + (Before pair takeover a).sent.length <
        (Before pair takeover m).sent.length := by decide +kernel
  intro a m ix i dg hlate hdel _
  fin_cases m
  all_goals first
    | cases hdel
      exact absurd hlate (early a _ (by decide))
    | cases hdel
      exact late a _ (by decide) hlate
    | cases hdel

theorem takeover_gone {x : Nat} (hx : 14 ≤ x) (hlen : x ≤ takeover.length) :
    ¬ Running (Before pair takeover x) 1 := by
  intro hrun
  obtain ⟨i, p, hp, hid⟩ := hrun
  have hup := (takeover_up ⟨x, Nat.lt_succ_of_le hlen⟩ i).mp (up_of_procs hp)
  have hids := takeover_ids ⟨x, Nat.lt_succ_of_le hlen⟩ i
  cases i with
  | false =>
    have hle : x ≤ 13 := hup.2
    omega
  | true =>
    rw [hp, Option.all_some, hid] at hids
    exact absurd hids (by decide)

theorem takeover_lost : Lost pair takeover (300 * 10 ^ 6) (100 * 10 ^ 6) 1 ⟨2, by decide⟩
    ⟨13, by decide⟩ ⟨14, by decide⟩ ⟨15, by decide⟩ ⟨20, by decide⟩ where
  order := by decide
  ran := by
    have hids := takeover_ids ⟨2, by decide⟩ false
    have hup : Up pair takeover 2 false := by decide +kernel
    obtain ⟨p, hp⟩ := Option.isSome_iff_exists.mp hup
    rw [hp] at hids
    refine ⟨false, p, hp, by simpa using hids, hup, ?_⟩
    intro x hx hxl
    have hne : x.val ≠ 0 ∧ x.val ≠ 13 := by
      have hx : 2 ≤ x.val := hx
      have hxl : x.val < 13 := hxl
      omega
    fin_cases x
    case «0» => exact absurd rfl hne.1
    case «13» => exact absurd rfl hne.2
    all_goals simp [takeover]
  known := by decide
  closed := by
    intro x hx _ i
    have hx : 2 ≤ x.val := hx
    have hne : x.val ≠ 0 ∧ x.val ≠ 1 := by omega
    fin_cases x
    case «0» => exact absurd rfl hne.1
    case «1» => exact absurd rfl hne.2
    all_goals simp [takeover]
  gone := fun x hx hlen => takeover_gone hx hlen
  fresh := takeover_fresh
  careful := by
    intro c i ord ms hac _ hd
    have hac : 15 ≤ c.val := hac
    have hne : c.val ≠ 12 := by omega
    fin_cases c
    case «12» => exact absurd rfl hne
    all_goals cases hd
    refine ⟨⟨18, by decide⟩, by decide, takeover_looked, ?_⟩
    intro x hx hxc
    have hx : 18 < x.val := hx
    have hxc : x.val < 19 := hxc
    omega
  drained := by decide
  scanned := by
    intro i hup
    have hi := (takeover_up ⟨20, by decide⟩ i).mp hup
    cases i with
    | false => exact absurd hi.2 (by decide)
    | true => exact ⟨⟨18, by decide⟩, by decide, by decide, takeover_looked⟩
  soon := by decide

theorem takeover_prompt : Run.Along (Network.step pair) Prompt Network.start takeover := by
  have scans : ∀ (x : Fin takeover.length) i ord, (takeover.get x).doing = .scan i ord →
      x.val = if i then 18 else 11 := by
    intro x i ord hd
    fin_cases x <;> cases hd <;> rfl
  have check : ∀ i : Bool, ((Before pair takeover (if i then 18 else 11)).procs i).all (fun p =>
      p.state.sampled.all (fun t => p.state.members.pairs.all (fun e =>
        decide (e.2.lastSeen ≤ t)))) = true := by decide +kernel
  intro pre e post hes i ord p t k r hd hp ht hr
  have hlt : pre.length < takeover.length := by
    rw [hes, List.length_append, List.length_cons]
    omega
  have he : takeover.get ⟨pre.length, hlt⟩ = e := by
    simp [hes]
  have hplace := scans ⟨pre.length, hlt⟩ i ord (by rw [he]; exact hd)
  have hpre : takeover.take (if i then 18 else 11) = pre := by
    rw [hes]
    exact List.take_left' hplace
  have hyoung := check i
  rw [Before, hpre, Network.run, hp, Option.all_some, ht, Option.all_some] at hyoung
  exact of_decide_eq_true (List.all_eq_true.mp hyoung (k, r) (Table.mem_pairs.mpr hr))

theorem takeover_rumour : ∃ p r, (Network.run pair takeover).procs true = some p ∧
    p.state.members.lookup 1 = some r ∧ r.state ≠ .alive := by
  have check : ((Before pair takeover takeover.length).procs true).any (fun p =>
      (p.state.members.lookup 1).isSome) = true := by decide +kernel
  obtain ⟨p, hp, hr⟩ := (Option.any_eq_true _ _).mp check
  obtain ⟨r, hr⟩ := Option.isSome_iff_exists.mp hr
  have hdead := (rumour_dies pair takeover takeover_steady takeover_prompt 1 _ _ _ _ _ takeover_lost
    takeover.length (by decide) (Nat.le_refl _)).1 true p r hp hr
  exact ⟨p, r, hp, hr, hdead⟩

end Hivebus.Proofs.Failover
