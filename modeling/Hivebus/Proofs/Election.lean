import Hivebus.Proofs.Failover

namespace Hivebus.Proofs.Election
open Lib Proto Bus ControlView Provenance Suspicion Heartbeats Failover

/-- The ids a daemon takes for Alive, its own among them. -/
def Trusted (p : Process) (k : UInt16) : Prop :=
  k = p.daemon.selfId ∨ AliveIn p.state.members k

theorem leads_iff_trusted (p : Process) (id : UInt16) :
    Leads p.state.members p.daemon.selfId id ↔ Trusted p id ∧ ∀ k, Trusted p k → id ≤ k := by
  constructor
  · intro h
    refine ⟨h.member, ?_⟩
    intro k hk
    rcases hk with rfl | hk
    · exact h.le_self
    · exact h.least k hk
  · intro h
    exact ⟨h.1, h.2 _ (.inl rfl), fun k hk => h.2 k (.inr hk)⟩

variable {ι : Type} [DecidableEq ι]

/-- The daemons that run in the end have all been up for longer than this. -/
def Settled (hosts : ι → Host) (es : List (Happening ι)) (bound : Duration) : Prop :=
  ∃ k l : Fin es.length, l.val + 1 = es.length ∧ (es.get k).now.ns + bound < (es.get l).now.ns ∧
    ∀ i, Up hosts es es.length i → Through hosts es k es.length i

/-- Every node that ever ran still stands, or is lost. -/
def Accounted (hosts : ι → Host) (es : List (Happening ι)) (period delay : Duration) : Prop :=
  ∀ (c : Fin es.length) n, Running (Before hosts es (c + 1)) n →
    Stands hosts es n ∨ ∃ k l g a b, Lost hosts es period delay n k l g a b

variable {hosts : ι → Host} {es : List (Happening ι)} {period delay : Duration}

theorem before_length (hosts : ι → Host) (es : List (Happening ι)) :
    Before hosts es es.length = Network.run hosts es := by
  rw [Before, List.take_length]

/-- A node that is held Alive in the end runs. -/
theorem alive_runs (h : Steady hosts es period delay)
    (hprompt : Run.Along (Network.step hosts) Prompt Network.start es)
    (hfate : Accounted hosts es period delay) {i : ι} {p : Process}
    (hp : (Before hosts es es.length).procs i = some p) {n : UInt16} {r : NodeInfo}
    (hr : p.state.members.lookup n = some r) (halive : r.state = .alive) :
    Running (Before hosts es es.length) n := by
  obtain ⟨d, hb, hid, _⟩ := ((before_sourced hosts es hp).records n r hr).life
  obtain ⟨c, j, _, _, hstart⟩ := born_started (Nat.le_refl _) hb
  rcases hfate c n ⟨j, _, hstart, hid⟩ with hn | ⟨k, l, g, a, b, hlost⟩
  · obtain ⟨q, hq, hqd⟩ := (hn.through c.isLt hstart hid).running hstart c.isLt (Nat.le_refl _)
      (Nat.le_refl _)
    exact ⟨j, q, hq, (congrArg Daemon.selfId hqd).trans hid⟩
  · have hgone := (hlost.holds h hprompt (Nat.le_of_lt b.isLt) (Nat.le_refl _)).1 i p hp
    exact absurd halive (hgone.records n r hr rfl)

/-- Who runs in the end stands. -/
theorem running_stands (hfate : Accounted hosts es period delay) {n : UInt16}
    (hrun : Running (Before hosts es es.length) n) : Stands hosts es n := by
  have hpos : 0 < es.length := by
    refine List.length_pos_iff.mpr ?_
    rintro rfl
    obtain ⟨j, q, hq, _⟩ := hrun
    cases hq
  have hlast : es.length - 1 + 1 = es.length := Nat.sub_add_cancel hpos
  rcases hfate ⟨es.length - 1, Nat.sub_lt hpos Nat.one_pos⟩ n (by rw [hlast]; exact hrun) with
    hn | ⟨k, l, g, a, b, hlost⟩
  · exact hn
  · exact absurd hrun (hlost.gone es.length (Nat.le_of_lt g.isLt) (Nat.le_refl _))

/-- In the end a daemon takes exactly those for Alive that run. -/
theorem trusted_iff (h : Steady hosts es period delay) (hp : Patient hosts (period + delay))
    (hkeep : period + delay < cleanupThreshold)
    (hprompt : Run.Along (Network.step hosts) Prompt Network.start es)
    (hfate : Accounted hosts es period delay) (hsettled : Settled hosts es (period + delay)) {i : ι}
    {p : Process} (hi : (Network.run hosts es).procs i = some p) (n : UInt16) :
    Trusted p n ↔ Running (Network.run hosts es) n := by
  rw [← before_length] at hi ⊢
  constructor
  · intro hn
    rcases hn with rfl | ⟨r, hr, halive⟩
    · exact ⟨i, p, hi, rfl⟩
    · exact alive_runs h hprompt hfate hi hr halive
  · intro hrun
    have hstands := running_stands hfate hrun
    obtain ⟨j, q, hj, rfl⟩ := hrun
    by_cases hself : q.daemon.selfId = p.daemon.selfId
    · exact .inl hself
    · obtain ⟨k, l, hlast, hlong, hup⟩ := hsettled
      have hki := hup i (up_of_procs hi)
      have hkj := hup j (up_of_procs hj)
      have hkl : k < l := h.lt_of_now_lt (Nat.lt_of_le_of_lt (Nat.le_add_right _ _) hlong)
      have hkle : k.val ≤ es.length := Nat.le_of_lt k.isLt
      have hlle : l.val ≤ es.length := Nat.le_of_lt l.isLt
      obtain ⟨qk, hqk⟩ := Option.isSome_iff_exists.mp hkj.up
      have hqd := hkj.same hqk hj hkle (Nat.le_refl _) (Nat.le_refl _)
      have hsoon : (es.get l).now.ns + period + delay < (es.get l).now.ns + cleanupThreshold := by
        rw [Nat.add_assoc]
        exact Nat.add_lt_add_left hkeep _
      have hn := h.known hprompt hkl hlle (Nat.le_of_eq hlast.symm) hki
        (hkj.sub (Nat.le_refl _) hlle hkle hkle) (by omega) hsoon hi hqk
        (by rw [← hqd]; exact hself)
      rw [← hqd] at hn
      obtain ⟨r', hr'⟩ := Option.isSome_iff_exists.mp (AList.lookup_isSome.mpr hn)
      have hcreed := h.creed hp hstands es [] (List.append_nil es).symm
      rw [before_length] at hi
      exact .inr ⟨r', hr', (hcreed.procs i p hi).records _ r' hr' rfl⟩

/-- Once every node that ever ran either stands or is lost, and those that run have been up
for longer than a period and a delay, each of them names the least id of a daemon that runs,
and nobody else. -/
theorem least_elected (hosts : ι → Host) (es : List (Happening ι)) {period delay : Duration}
    (h : Steady hosts es period delay) (hp : Patient hosts (period + delay))
    (hkeep : period + delay < cleanupThreshold)
    (hprompt : Run.Along (Network.step hosts) Prompt Network.start es)
    (hfate : Accounted hosts es period delay) (hsettled : Settled hosts es (period + delay)) :
    ∀ i p, (Network.run hosts es).procs i = some p → ∀ ord id,
      masterFrom ord p.state.members p.daemon.selfId = some id ↔
        Running (Network.run hosts es) id ∧ ∀ n, Running (Network.run hosts es) n → id ≤ n := by
  intro i p hi ord id
  have htrusted := trusted_iff h hp hkeep hprompt hfate hsettled hi
  rw [masterFrom_iff ((run_sourced hosts es).procs i p hi).wellFormed ord, leads_iff_trusted,
    htrusted]
  exact and_congr_right (fun _ => forall_congr' (fun n => by rw [htrusted]))

theorem takeover_id {c : Nat} (hc : c ≤ takeover.length) {i : Bool} {p : Process}
    (hp : (Before pair takeover c).procs i = some p) : p.daemon.selfId = if i then 2 else 1 := by
  have hids := takeover_ids ⟨c, Nat.lt_succ_of_le hc⟩ i
  rw [hp, Option.all_some] at hids
  exact eq_of_beq hids

theorem takeover_accounted : Accounted pair takeover (300 * 10 ^ 6) (100 * 10 ^ 6) := by
  intro c n hrun
  obtain ⟨i, p, hp, rfl⟩ := hrun
  rw [takeover_id c.isLt hp]
  cases i with
  | false => exact .inr ⟨_, _, _, _, _, takeover_lost⟩
  | true => exact .inl takeover_stands

theorem takeover_survivor : ∃ p, (Network.run pair takeover).procs true = some p ∧
    (Network.run pair takeover).procs false = none ∧ p.daemon.selfId = 2 := by
  have htrue := (takeover_up ⟨21, by decide⟩ true).mpr (by decide)
  have hfalse := (takeover_up ⟨21, by decide⟩ false).not.mpr (by decide)
  obtain ⟨p, hp⟩ := Option.isSome_iff_exists.mp htrue
  exact ⟨p, hp, Option.not_isSome_iff_eq_none.mp hfalse, takeover_id (Nat.le_refl _) hp⟩

theorem takeover_running (k : UInt16) : Running (Network.run pair takeover) k ↔ k = 2 := by
  obtain ⟨p, hp, hnone, hid⟩ := takeover_survivor
  constructor
  · intro hk
    obtain ⟨j, q, hj, rfl⟩ := hk
    cases j with
    | false =>
      rw [hnone] at hj
      cases hj
    | true =>
      rw [hp] at hj
      cases hj
      exact hid
  · intro hk
    exact ⟨true, p, hp, hid.trans hk.symm⟩

theorem takeover_settled : Settled pair takeover (300 * 10 ^ 6 + 100 * 10 ^ 6) := by
  obtain ⟨p, hp, hnone, hid⟩ := takeover_survivor
  refine ⟨⟨2, by decide⟩, ⟨20, by decide⟩, rfl, by decide, ?_⟩
  intro i hup
  cases i with
  | false =>
    rw [Up, before_length, hnone] at hup
    cases hup
  | true =>
    have htwo := (takeover_up ⟨2, by decide⟩ true).mpr (by decide)
    obtain ⟨q, hq⟩ := Option.isSome_iff_exists.mp htwo
    exact takeover_stands ⟨2, by decide⟩ true q hq (takeover_id (by decide) hq)

theorem takeover_elects : ∃ p, (Network.run pair takeover).procs true = some p ∧
    masterFrom .newest p.state.members p.daemon.selfId = some 2 := by
  obtain ⟨p, hp, _, _⟩ := takeover_survivor
  refine ⟨p, hp, (least_elected pair takeover takeover_steady pair_patient (by decide)
    takeover_prompt takeover_accounted takeover_settled true p hp .newest 2).mpr ?_⟩
  refine ⟨(takeover_running 2).mpr rfl, ?_⟩
  intro n hn
  rw [(takeover_running n).mp hn]
  exact UInt16.le_refl _

end Hivebus.Proofs.Election
