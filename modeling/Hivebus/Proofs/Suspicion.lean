import Hivebus.Proofs.Provenance

namespace Hivebus.Proofs.Suspicion
open Lib Proto Bus ControlView Provenance

variable {ι : Type}

/-- Young enough to be kept and old enough to be doubted. -/
def Overdue (d : Daemon) (t : SystemTime) (r : NodeInfo) : Prop :=
  age t r < cleanupThreshold ∧ (d.suspectThreshold < age t r ∨ d.deadThreshold < age t r)

instance (d : Daemon) (t : SystemTime) (r : NodeInfo) : Decidable (Overdue d t r) :=
  inferInstanceAs (Decidable (_ ∧ _))

/-- If this step is a scan, it does not find the record of `n` overdue. -/
def Spared (n : UInt16) (w : Network ι) (e : Happening ι) : Prop :=
  ∀ i ord p t r, e.doing = .scan i ord → w.procs i = some p → p.state.sampled = some t →
    p.state.members.lookup n = some r → ¬ Overdue p.daemon t r

/-- No table has `n` as anything but Alive, and no gossip that was ever sent says it is. -/
structure AliveEverywhere (n : UInt16) (w : Network ι) : Prop where
  tables : ∀ i p r, w.procs i = some p → p.state.members.lookup n = some r → r.state = .alive
  gossip : ∀ dg ∈ w.sent, ∀ f pl, decodeFrame dg.data = some f → f.message = .gossip pl →
    ∀ e ∈ pl.entries, e.nodeId = n → e.state = .alive

/-- What is said of `n` is that it is Alive. -/
def aliveCreed (n : UInt16) : Creed where
  born := fun _ => True
  source := fun _ => True
  record := fun k r => k = n → r.state = .alive
  entry := fun e => e.nodeId = n → e.state = .alive

theorem aliveCreed_closed (n : UInt16) : (aliveCreed n).Closed where
  news := by
    intro now source x r r' _ hx hr h hn
    cases x with
    | heartbeat nid pl =>
      cases h
      rfl
    | announce nid pl =>
      cases h
      rfl
    | leave nid pl => exact hx.elim
    | gossip entry =>
      cases h
      have hd : (r.getD (gossipRecord now source entry)).state = .alive := by
        cases r with
        | none => exact hx hn
        | some e => exact hr e rfl hn
      unfold absorb
      split
      · exact hx hn
      · exact hd
  spread := by
    intro k r ms hid hr hn
    exact hr (hid.symm.trans hn)

theorem downgrade_spared {d : Daemon} {t : SystemTime} {r : NodeInfo}
    (hage : age t r < cleanupThreshold) (h : ¬ Overdue d t r) : downgrade d t r = r := by
  unfold Overdue at h
  unfold downgrade
  rw [if_neg (fun hd => h ⟨hage, .inr hd⟩), if_neg (fun hs => h ⟨hage, .inl hs.1⟩)]

/-- A scan takes an overdue record for anything but Alive. -/
theorem downgrade_overdue {d : Daemon} {t : SystemTime} {r : NodeInfo} (h : Overdue d t r) :
    (downgrade d t r).state ≠ .alive := by
  unfold downgrade
  split
  · simp
  · next hd =>
    have hs : d.suspectThreshold < age t r := h.2.resolve_right hd
    split
    · simp
    · next hn =>
      intro ha
      exact hn ⟨hs, ha⟩

theorem AliveEverywhere.of_holds {n : UInt16} {w : Network ι} (hw : (aliveCreed n).Holds w) :
    AliveEverywhere n w where
  tables := by
    intro i p r hp hr
    exact (hw.procs i p hp).records n r hr rfl
  gossip := by
    intro dg hdg f pl hf hm e he
    obtain ⟨_, _, f', hf', hu⟩ := hw.sent dg hdg
    rw [hf] at hf'
    cases hf'
    have := hu.2
    rw [hm] at this
    exact this e he

/-- The ids a daemon knows of, its own among them. -/
def Known (p : Process) (k : UInt16) : Prop := k = p.daemon.selfId ∨ k ∈ p.state.members

/-- A daemon that takes nobody for less than Alive is led by the least id it knows of. -/
theorem leads_iff_least {p : Process} (hw : WellFormed p.state.members p.daemon.selfId)
    (ha : ∀ k r, p.state.members.lookup k = some r → r.state = .alive)
    (ord : Table.Order UInt16 NodeInfo) (id : UInt16) :
    masterFrom ord p.state.members p.daemon.selfId = some id ↔
      Known p id ∧ ∀ k, Known p k → id ≤ k := by
  have hin : ∀ k, AliveIn p.state.members k ↔ k ∈ p.state.members := by
    intro k
    rw [← AList.lookup_isSome, Option.isSome_iff_exists]
    constructor
    · intro h
      obtain ⟨r, hr, _⟩ := h
      exact ⟨r, hr⟩
    · intro h
      obtain ⟨r, hr⟩ := h
      exact ⟨r, hr, ha k r hr⟩
  rw [masterFrom_iff hw]
  constructor
  · intro h
    refine ⟨h.member.imp_right (hin id).mp, ?_⟩
    intro k hk
    rcases hk with rfl | hk
    · exact h.le_self
    · exact h.least k ((hin k).mpr hk)
  · intro h
    refine ⟨h.1.imp_right (hin id).mpr, h.2 _ (.inl rfl), ?_⟩
    intro k hk
    exact h.2 k (.inr ((hin k).mp hk))

/-- Whether a daemon that scans now finds nothing overdue. -/
def Process.calm (p : Process) : Bool :=
  p.state.sampled.all (fun t =>
    p.state.members.pairs.all (fun e => !decide (Overdue p.daemon t e.2)))

theorem spared_of_calm {n : UInt16} {w : Network ι} {e : Happening ι}
    (h : ∀ i ord, e.doing = .scan i ord → (w.procs i).all Process.calm = true) : Spared n w e := by
  intro i ord p t r hd hp ht hr
  have hc := h i ord hd
  rw [hp] at hc
  simp only [Option.all_some, Process.calm, ht] at hc
  have hr := List.all_eq_true.mp hc (n, r) (Table.mem_pairs.mpr hr)
  simpa using hr

theorem known_iff (w : Network ι) (i : ι) (self : UInt16) (ids : List UInt16)
    (h : (w.procs i).map (fun p => (p.daemon.selfId, p.state.members.keys)) = some (self, ids)) :
    ∃ p, w.procs i = some p ∧ ∀ k, Known p k ↔ k = self ∨ k ∈ ids := by
  obtain ⟨p, hp, he⟩ := Option.map_eq_some_iff.mp h
  cases he
  exact ⟨p, hp, fun k => by rw [Known, AList.mem_keys]⟩

variable [DecidableEq ι]

theorem step_aliveCreed {n : UInt16} (hosts : ι → Host) {w : Network ι} {e : Happening ι}
    (hw : (aliveCreed n).Holds w) (he : Spared n w e) :
    (aliveCreed n).Holds (Network.step hosts w e) := by
  refine step_holds (aliveCreed_closed n) hw (fun _ => trivial) (fun _ _ _ _ => trivial) ?_
  intro i ord p t hd hp ht k r hr hage hk b hn
  subst hn
  rw [downgrade_spared hage (he i ord p t r hd hp ht hr)]
  exact hk rfl

/-- A node is held Alive by everybody, in every table and every gossip of a run, if and only
if no daemon ever scans an overdue record of it: a doubt is never born on the way, and one
that is born shows. -/
theorem alive_everywhere_iff (hosts : ι → Host) (es : List (Happening ι)) (n : UInt16) :
    Run.Throughout (Network.step hosts) (AliveEverywhere n) Network.start es ↔
      Run.Along (Network.step hosts) (Spared n) Network.start es := by
  constructor
  · intro h pre e post hes i ord p t r hd hp ht hr hover
    have hafter := h (pre ++ [e]) post (by simp [hes])
    rw [Run.exec_append, Run.exec_cons, Run.exec_nil] at hafter
    obtain ⟨now, doing⟩ := e
    cases hd
    -- the scan leaves the record in the table, and it is not Alive there
    have hproc : (Network.step hosts (Run.exec (Network.step hosts) Network.start pre)
        ⟨now, .scan i ord⟩).procs i = some (p.step ord ⟨now, .scan⟩) := by
      simp [Network.step, Network.onProcess, hp]
    have hrec : ∃ b, (p.step ord ⟨now, .scan⟩).state.members.lookup n =
        some { downgrade p.daemon t r with isMaster := b } := by
      simp [Process.step, Bus.step, ht, lookup_scan, hr, hover.1]
    obtain ⟨b, hrec⟩ := hrec
    have halive := hafter.tables i _ _ hproc hrec
    exact downgrade_overdue hover halive
  · intro h pre post hes
    have hw := Run.throughout_of_along (I := (aliveCreed n).Holds)
      (fun w e hw he => step_aliveCreed hosts hw he) start_holds h
    exact .of_holds (hw pre post hes)

/-- As long as no scan has found a record overdue, every daemon of the cluster names the
least id it knows of, its own or that of a daemon that has run, and any two that know of the
same ids name the same master, however their tables came about. -/
theorem calm_cluster_agrees (hosts : ι → Host) (es : List (Happening ι))
    (hcalm : ∀ n, Run.Along (Network.step hosts) (Spared n) Network.start es) :
    ∀ i p, (Network.run hosts es).procs i = some p →
      (∀ ord id, masterFrom ord p.state.members p.daemon.selfId = some id ↔
        Known p id ∧ ∀ k, Known p k → id ≤ k) ∧
      (∀ k, Known p k → ∃ d, Born hosts es d ∧ d.selfId = k) ∧
      ∀ j q, (Network.run hosts es).procs j = some q → (∀ k, Known p k ↔ Known q k) →
        ∀ ord ord', masterFrom ord p.state.members p.daemon.selfId =
          masterFrom ord' q.state.members q.daemon.selfId := by
  have hsourced := run_sourced hosts es
  have leads : ∀ i p, (Network.run hosts es).procs i = some p →
      ∀ ord id, masterFrom ord p.state.members p.daemon.selfId = some id ↔
        Known p id ∧ ∀ k, Known p k → id ≤ k := by
    intro i p hp ord id
    refine leads_iff_least (hsourced.procs i p hp).wellFormed ?_ ord id
    intro k r hr
    have hk := Run.throughout_of_along (I := (aliveCreed k).Holds)
      (fun w e hw he => step_aliveCreed hosts hw he) start_holds (hcalm k)
    exact (AliveEverywhere.of_holds (hk es [] (List.append_nil es).symm)).tables i p r hp hr
  intro i p hp
  refine ⟨leads i p hp, ?_, ?_⟩
  · intro k hk
    have hkeeps := hsourced.procs i p hp
    rcases hk with rfl | hk
    · exact ⟨p.daemon, hkeeps.born, rfl⟩
    · obtain ⟨r, hr⟩ := Option.isSome_iff_exists.mp (AList.lookup_isSome.mpr hk)
      obtain ⟨d, hb, hd, _⟩ := (hkeeps.records k r hr).life
      exact ⟨d, hb, hd⟩
  · intro j q hq hsame ord ord'
    obtain ⟨id, hid, _⟩ := masterFrom_leads (hsourced.procs i p hp).wellFormed ord
    obtain ⟨hk, hl⟩ := (leads i p hp ord id).mp hid
    rw [hid, eq_comm, leads j q hq ord' id]
    exact ⟨(hsame id).mp hk, fun k h => hl k ((hsame k).mpr h)⟩

/-- Two machines with a config that leaves everything to its defaults. -/
def pair (b : Bool) : Host where
  cfg := ⟨"eth1", ⟨0x0A2A000A + b.toUInt32⟩, some (1 + b.toUInt16), some "n", 150, 3, 30⟩
  gethostname := none
  readToString := fun _ => none
  source := peer b.toUInt32

/-- Both start and hear of each other, and one scans its table. -/
def meeting : List (Happening Bool) :=
  [⟨.early 1, .boot false⟩, ⟨.early 2, .boot true⟩, ⟨.early 3, .deliver 0 false⟩,
    ⟨.early 3, .deliver 1 true⟩, ⟨.early 4, .sample true⟩, ⟨.early 5, .scan true .newest⟩]

theorem meeting_calm (n : UInt16) :
    Run.Along (Network.step pair) (Spared n) Network.start meeting := by
  have hscan : ((Network.run pair (meeting.take 5)).procs true).all Process.calm = true := by
    decide +kernel
  simp only [meeting, Run.along_cons]
  refine ⟨spared_of_calm ?_, spared_of_calm ?_, spared_of_calm ?_, spared_of_calm ?_,
    spared_of_calm ?_, spared_of_calm ?_, Run.along_nil _ _⟩
  case refine_6 =>
    intro i ord hd
    cases hd
    exact hscan
  all_goals
    intro i ord hd
    cases hd

theorem meeting_agrees : ∃ p q, (Network.run pair meeting).procs false = some p ∧
    (Network.run pair meeting).procs true = some q ∧
    masterFrom .newest p.state.members p.daemon.selfId = some 1 ∧
    masterFrom .newest q.state.members q.daemon.selfId = some 1 := by
  obtain ⟨p, hp, hk⟩ := known_iff (Network.run pair meeting) false 1 [2] (by decide +kernel)
  obtain ⟨q, hq, hk'⟩ := known_iff (Network.run pair meeting) true 2 [1] (by decide +kernel)
  have agree := calm_cluster_agrees pair meeting meeting_calm
  have hfirst : masterFrom .newest p.state.members p.daemon.selfId = some 1 := by
    rw [(agree false p hp).1, hk]
    refine ⟨.inl rfl, ?_⟩
    intro k h
    rcases (hk k).mp h with rfl | h
    · exact UInt16.le_refl _
    · cases List.mem_singleton.mp h
      decide
  refine ⟨p, q, hp, hq, hfirst, ?_⟩
  rw [← hfirst, eq_comm]
  refine (agree false p hp).2.2 true q hq ?_ .newest .newest
  intro k
  rw [hk, hk', List.mem_singleton, List.mem_singleton, or_comm]

end Hivebus.Proofs.Suspicion
