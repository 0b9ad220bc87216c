import Mathlib.Order.WithBot
import Hivebus.Proofs.Master

namespace Hivebus.Proofs.Scan
open Lib Proto Bus ControlView Master

/-- The time since a node was last seen, infinite when that is after `now`. -/
def elapsed (now : SystemTime) (node : NodeInfo) : WithTop Nat :=
  if node.lastSeen ≤ now then WithTop.some (now.ns - node.lastSeen.ns) else ⊤

/-- The state a scan leaves a record in. -/
def scannedState (d : Daemon) (now : SystemTime) (node : NodeInfo) : NodeState :=
  if WithTop.some d.deadThreshold < elapsed now node then .dead
  else if node.state = .alive ∧ WithTop.some d.suspectThreshold < elapsed now node then
    .suspect
  else node.state

/-- The table after one scan, told from the one before it. -/
structure Scanned (d : Daemon) (now : SystemTime) (m m' : Members) : Prop where
  kept : ∀ k r, m.lookup k = some r → elapsed now r < WithTop.some cleanupThreshold →
    ∃ b, m'.lookup k = some { r with state := scannedState d now r, isMaster := b }
  dropped : ∀ k, (∀ r, m.lookup k = some r →
    ¬ elapsed now r < WithTop.some cleanupThreshold) → m'.lookup k = none
  flagged : WellFormed m d.selfId → ∀ k r, m'.lookup k = some r →
    (r.isMaster = true ↔ k < d.selfId ∧ AliveIn m' k ∧ ∀ j, AliveIn m' j → k ≤ j)

theorem elapsed_of_le {now : SystemTime} {node : NodeInfo} (h : node.lastSeen ≤ now) :
    elapsed now node = WithTop.some (age now node) := by
  simp only [elapsed, age, SystemTime.durationSince, h, ↓reduceIte, Option.getD_some]

/-- The cleanup cannot tell an infinite age from the longest one. -/
theorem young_iff (now : SystemTime) (node : NodeInfo) :
    elapsed now node < WithTop.some cleanupThreshold ↔
      age now node < cleanupThreshold := by
  by_cases h : node.lastSeen ≤ now
  · rw [elapsed_of_le h]
    exact WithTop.coe_lt_coe
  · have hmax : ¬ Duration.max < cleanupThreshold := by decide
    have hage : age now node = Duration.max := by
      simp only [age, SystemTime.durationSince, h, ↓reduceIte, Option.getD_none]
    have hel : elapsed now node = ⊤ := if_neg h
    rw [hage, hel]
    exact ⟨fun ht => absurd ht not_top_lt, fun ha => absurd ha hmax⟩

theorem elapsed_of_young {now : SystemTime} {node : NodeInfo} (h : age now node < cleanupThreshold) :
    elapsed now node = WithTop.some (age now node) := by
  have hlt := (young_iff now node).mpr h
  by_cases hle : node.lastSeen ≤ now
  · exact elapsed_of_le hle
  · rw [elapsed, if_neg hle] at hlt
    exact absurd hlt not_top_lt

/-- On the records that are kept, the state pass does what it should. -/
theorem downgrade_young {d : Daemon} {now : SystemTime} {node : NodeInfo}
    (h : age now node < cleanupThreshold) :
    downgrade d now node = { node with state := scannedState d now node } := by
  rw [scannedState, elapsed_of_young h]
  simp only [downgrade, WithTop.coe_lt_coe]
  split
  · rfl
  · split
    · next hs => rw [if_pos ⟨hs.2, hs.1⟩]
    · next hs => rw [if_neg (fun hn => hs ⟨hn.2, hn.1⟩)]

theorem scan_kept {m : Members} {k : UInt16} {r : NodeInfo} (hr : m.lookup k = some r)
    (ord : Table.Order UInt16 NodeInfo) (d : Daemon) (now : SystemTime)
    (h : elapsed now r < WithTop.some cleanupThreshold) :
    ∃ b, (scan ord d now m).lookup k =
      some { r with state := scannedState d now r, isMaster := b } := by
  have hage := (young_iff now r).mp h
  have hfilter : (some r).filter (fun node => age now node < cleanupThreshold) = some r := by
    rw [Option.filter_some, if_pos (by simpa using hage)]
  rw [lookup_scan, hr, hfilter, Option.map_some, Option.map_some, downgrade_young hage]
  exact ⟨_, rfl⟩

theorem scan_dropped {m : Members} {k : UInt16} (ord : Table.Order UInt16 NodeInfo) (d : Daemon)
    (now : SystemTime) (h : ∀ r, m.lookup k = some r →
      ¬ elapsed now r < WithTop.some cleanupThreshold) :
    (scan ord d now m).lookup k = none := by
  rw [lookup_scan_none]
  intro r hr
  have hold := h r hr
  rw [young_iff] at hold
  exact Nat.le_of_not_lt hold

/-- The flag pass marks the least Alive id where that is not the daemon's own. -/
theorem scan_marks {m : Members} {d : Daemon} (hw : WellFormed m d.selfId)
    (ord : Table.Order UInt16 NodeInfo) (now : SystemTime) {k : UInt16} {r : NodeInfo}
    (hr : (scan ord d now m).lookup k = some r) :
    r.isMaster = true ↔ k < d.selfId ∧ AliveIn (scan ord d now m) k ∧
      ∀ j, AliveIn (scan ord d now m) j → k ≤ j := by
  obtain ⟨r₀, _, _, hr₀, _⟩ := lookup_scan_some hr
  have hself : k ≠ d.selfId := (hw k r₀ hr₀).2
  rw [scan_flagged hw ord now k r hr]
  constructor
  · intro hl
    refine ⟨UInt16.lt_of_le_of_ne hl.le_self hself, ?_, hl.least⟩
    rcases hl.member with h | h
    · exact absurd h hself
    · exact h
  · intro h
    obtain ⟨hlt, halive, hleast⟩ := h
    exact ⟨.inr halive, UInt16.le_of_lt hlt, hleast⟩

/-- The election looks at who is alive, not at how the table is listed. -/
theorem masterFrom_perm {ord ord' : Table.Order UInt16 NodeInfo} {m m' : Members}
    (h : (((ord.values m).filter (fun n => n.state == .alive)).map NodeInfo.nodeId).Perm
      (((ord'.values m').filter (fun n => n.state == .alive)).map NodeInfo.nodeId))
    (selfId : UInt16) : masterFrom ord m selfId = masterFrom ord' m' selfId := by
  have hperm := (List.perm_insertionSort (· ≤ ·) _).trans
    ((h.append_right [selfId]).trans (List.perm_insertionSort (· ≤ ·) _).symm)
  unfold masterFrom
  exact congrArg List.head? (List.Perm.eq_of_pairwise (fun _ _ _ _ => UInt16.le_antisymm)
    (sorted_ids _) (sorted_ids _) hperm)

/-- Writing the flags does not change who is elected. -/
theorem masterFrom_flags (ord ord' : Table.Order UInt16 NodeInfo) (m : Members)
    (flag : NodeInfo → Bool) (selfId : UInt16) :
    masterFrom ord' (m.mapValues (fun node => { node with isMaster := flag node })) selfId =
      masterFrom ord m selfId := by
  apply masterFrom_perm
  have hlist : ∀ (ord : Table.Order UInt16 NodeInfo) (m : Members),
      (((ord.values m).filter (fun n => n.state == .alive)).map NodeInfo.nodeId).Perm
        (((m.pairs.map Prod.snd).filter (fun n => n.state == .alive)).map NodeInfo.nodeId) := by
    intro ord m
    exact (((ord.perm m).map Prod.snd).filter _).map _
  have hsame : (((m.mapValues (fun node => { node with isMaster := flag node })).pairs.map
      Prod.snd).filter (fun n => n.state == .alive)).map NodeInfo.nodeId =
      ((m.pairs.map Prod.snd).filter (fun n => n.state == .alive)).map NodeInfo.nodeId := by
    simp only [Table.pairs_mapValues, List.map_map, List.filter_map, Function.comp_def]
  exact (hlist ord' _).trans (hsame ▸ (hlist ord m).symm)

/-- A record that has been downgraded once is not downgraded again. -/
theorem downgrade_downgrade (d : Daemon) (now : SystemTime) (node : NodeInfo) (b : Bool) :
    downgrade d now { downgrade d now node with isMaster := b } =
      { downgrade d now node with isMaster := b } := by
  unfold downgrade
  by_cases hdead : age now node > d.deadThreshold
  · have hdead' : age now { node with state := .dead, isMaster := b } > d.deadThreshold := hdead
    rw [if_pos hdead, if_pos hdead']
  · rw [if_neg hdead]
    by_cases hsus : age now node > d.suspectThreshold ∧ node.state = .alive
    · have hdead' : ¬ age now { node with state := .suspect, isMaster := b } > d.deadThreshold :=
        hdead
      rw [if_pos hsus, if_neg hdead', if_neg (fun h => nomatch h.2)]
    · have hdead' : ¬ age now { node with isMaster := b } > d.deadThreshold := hdead
      have hsus' : ¬ (age now { node with isMaster := b } > d.suspectThreshold ∧
          node.state = .alive) := hsus
      rw [if_neg hsus, if_neg hdead', if_neg hsus']

/-- The first two passes have nothing left to do after a scan. -/
theorem agedMembers_scan (ord : Table.Order UInt16 NodeInfo) (d : Daemon) (now : SystemTime)
    (m : Members) : agedMembers d now (scan ord d now m) = scan ord d now m := by
  have hretain : (scan ord d now m).retain (fun _ node => age now node < cleanupThreshold) =
      scan ord d now m := by
    apply Table.retain_eq_self
    intro e he
    obtain ⟨r, st, b, _, hage, hr⟩ := lookup_scan_some (Table.mem_pairs.mp he)
    rw [hr]
    exact decide_eq_true hage
  rw [agedMembers, hretain]
  apply Table.mapValues_eq_self
  intro e he
  have hl := Table.mem_pairs.mp he
  rw [lookup_scan] at hl
  obtain ⟨q, hq, hr⟩ := Option.map_eq_some_iff.mp hl
  obtain ⟨r, _, rfl⟩ := Option.map_eq_some_iff.mp hq
  rw [← hr]
  exact downgrade_downgrade d now r _

theorem scan_scan (ord ord' : Table.Order UInt16 NodeInfo) (d : Daemon) (now : SystemTime)
    (m : Members) : scan ord' d now (scan ord d now m) = scan ord d now m := by
  have hmaster : masterFrom ord' (scan ord d now m) d.selfId =
      masterFrom ord (agedMembers d now m) d.selfId := by
    rw [scan]
    exact masterFrom_flags ord ord' (agedMembers d now m)
      (fun node => some node.nodeId == masterFrom ord (agedMembers d now m) d.selfId) d.selfId
  rw [scan, agedMembers_scan, hmaster]
  apply Table.mapValues_eq_self
  intro e he
  have hl := Table.mem_pairs.mp he
  rw [lookup_scan] at hl
  obtain ⟨q, _, hr⟩ := Option.map_eq_some_iff.mp hl
  rw [← hr]

/-- What one scan makes of a table, for every table, time and pair of thresholds; a second
one at the same time makes nothing of it. -/
theorem scan_spec (ord : Table.Order UInt16 NodeInfo) (d : Daemon) (now : SystemTime)
    (m : Members) :
    Scanned d now m (scan ord d now m) ∧
      ∀ ord', scan ord' d now (scan ord d now m) = scan ord d now m := by
  refine ⟨⟨?_, ?_, ?_⟩, ?_⟩
  · intro k r hr h
    exact scan_kept hr ord d now h
  · intro k h
    exact scan_dropped ord d now h
  · intro hw k r hr
    exact scan_marks hw ord now hr
  · intro ord'
    exact scan_scan ord ord' d now m

end Hivebus.Proofs.Scan
