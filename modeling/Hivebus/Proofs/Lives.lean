import Hivebus.Proofs.Incarnation

namespace Hivebus.Proofs.Lives
open Lib Proto Bus Incarnation

/-- Every peer whose record of node `n` has the incarnation of the second of two starts
keeps the record's incarnation and state when it takes in gossip in which the node has
the incarnation of the first. -/
def SecondLifeKept (n : UInt16) (first second : SystemTime) : Prop :=
  ∀ ord d es now source nid pl r, (run ord d es).members.lookup n = some r →
    r.incarnation = startIncarnation second →
    (∀ entry ∈ pl.entries, entry.nodeId = n → entry.incarnation = startIncarnation first) →
    ∃ r', (step ord d (run ord d es) ⟨now, .recv source ⟨nid, .gossip pl⟩⟩).members.lookup n =
        some r' ∧ r'.incarnation = r.incarnation ∧ r'.state = r.state

/-- Gossip in which a node has an incarnation below that of its record does nothing to the
record. -/
theorem gossip_below (selfId : UInt16) (now : SystemTime) (source : SocketAddr) {n : UInt16}
    (entries : List GossipEntry) (m : Members) {r : NodeInfo} (hr : m.lookup n = some r)
    (hlt : ∀ entry ∈ entries, entry.nodeId = n → entry.incarnation < r.incarnation) :
    (entries.foldl (onGossipEntry selfId now source) m).lookup n = some r := by
  induction entries generalizing m with
  | nil => exact hr
  | cons entry entries ih =>
    rw [List.foldl_cons]
    apply ih
    · rw [lookup_onGossipEntry]
      split
      · next hn =>
        rw [hr, Option.getD_some, absorb_stale (hlt entry List.mem_cons_self hn.1.symm)]
      · exact hr
    · intro e he
      exact hlt e (List.mem_cons_of_mem _ he)

/-- A peer that has heard one heartbeat of the node, in its second life. -/
def hearsSecond (n : UInt16) (second : SystemTime) : List Event :=
  [⟨second, .recv (peer 1) ⟨n, .heartbeat ⟨startIncarnation second, epochMs second⟩⟩⟩]

/-- Somebody else says of the node that its first life is over. -/
def obituary (n : UInt16) (first : SystemTime) : GossipPayload :=
  ⟨[⟨n, startIncarnation first, .dead, epochMs first⟩]⟩

theorem peer_id_ne (n : UInt16) : n ≠ n + 1 := by
  intro h
  have := congrArg UInt16.toNat h
  rw [UInt16.toNat_add, UInt16.toNat_one] at this
  omega

def daemonAt (n : UInt16) : Daemon := defaultDaemon n (nodeName n) (peer 0) 1

@[simp] theorem daemonAt_selfId (n : UInt16) : (daemonAt n).selfId = n := rfl

def secondRecord (n : UInt16) (second : SystemTime) : NodeInfo :=
  heartbeatRecord second (peer 1) n ⟨startIncarnation second, epochMs second⟩

theorem hearsSecond_record {n selfId : UInt16} (hne : n ≠ selfId) (second : SystemTime) :
    (run .newest (daemonAt selfId) (hearsSecond n second)).members.lookup n =
      some (secondRecord n second) := by
  simp only [run, hearsSecond, Run.exec_cons, Run.exec_nil, step, handleFrame, daemonAt_selfId, hne,
    ↓reduceIte, onHeartbeat, Table.lookup_upsert]
  rfl

theorem obituary_believed (n : UInt16) {first second : SystemTime}
    (h : startIncarnation second ≤ startIncarnation first) : ¬ SecondLifeKept n first second := by
  intro hk
  have hne := peer_id_ne n
  have hnext := peer_id_ne (n + 1)
  obtain ⟨r', hr', _, hstate⟩ := hk .newest (daemonAt (n + 1)) (hearsSecond n second) second
    (peer 2) (n + 1 + 1) (obituary n first) _ (hearsSecond_record hne second) rfl (by
      intro entry he _
      rw [List.mem_singleton.mp he])
  have hlook : (step .newest (daemonAt (n + 1)) (run .newest (daemonAt (n + 1))
      (hearsSecond n second)) ⟨second, .recv (peer 2) ⟨n + 1 + 1, .gossip (obituary n first)⟩⟩
      ).members.lookup n = some { secondRecord n second with
        state := .dead, incarnation := startIncarnation first } := by
    simp only [step, handleFrame, daemonAt_selfId, hnext.symm, ↓reduceIte, onGossip, obituary,
      List.foldl_cons, List.foldl_nil, lookup_onGossipEntry, hne, ne_eq, not_false_eq_true,
      and_self, hearsSecond_record hne, Option.getD_some]
    have hge : startIncarnation first ≥ (secondRecord n second).incarnation := h
    simp only [absorb, hge, ↓reduceIte]
  rw [hlook] at hr'
  cases hr'
  cases hstate

/-- The lives of a node are told apart, by every peer and whatever is gossiped, exactly when
the low 32 bits of the two start times in milliseconds are in the order of the starts. -/
theorem lives_ordered_iff (n : UInt16) (first second : SystemTime) :
    SecondLifeKept n first second ↔
      (epochMs first).toNat % 2 ^ 32 < (epochMs second).toNat % 2 ^ 32 := by
  have hiff : startIncarnation first < startIncarnation second ↔
      (epochMs first).toNat % 2 ^ 32 < (epochMs second).toNat % 2 ^ 32 := by
    rw [UInt32.lt_iff_toNat_lt, startIncarnation, startIncarnation, UInt64.toNat_toUInt32,
      UInt64.toNat_toUInt32]
  rw [← hiff]
  constructor
  · intro hk
    by_contra hlt
    exact obituary_believed n (UInt32.not_lt.mp hlt) hk
  · intro hlt ord d es now source nid pl r hr hi he
    refine ⟨r, ?_, rfl, rfl⟩
    have hbelow := gossip_below d.selfId now source pl.entries (run ord d es).members hr (by
      intro entry hm hn
      rw [he entry hm hn, hi]
      exact hlt)
    simp only [step, handleFrame]
    split
    · exact hr
    · exact hbelow

/-- The last millisecond before the low 32 bits start over, on a day of June 2026. -/
def beforeBoundary : SystemTime := ⟨(415 * 2 ^ 32 - 1) * 10 ^ 6, by decide⟩

/-- A minute past it. -/
def afterBoundary : SystemTime := ⟨(415 * 2 ^ 32 + 60000) * 10 ^ 6, by decide⟩

theorem lives_across_boundary :
    epochMs beforeBoundary < epochMs afterBoundary ∧
      ¬ SecondLifeKept 1 beforeBoundary afterBoundary :=
  ⟨by decide, obituary_believed 1 (by decide)⟩

end Hivebus.Proofs.Lives
