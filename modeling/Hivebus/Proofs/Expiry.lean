import Mathlib.Data.Finset.Card
import Hivebus.Proofs.Crowd

namespace Hivebus.Proofs.Expiry
open Lib Proto Pxeboot Leases Pool Offers Crowd

/-- The server together with the time each client's lease was last stored or renewed. -/
structure Served where
  state : State
  served : Mac → Option Instant

def Served.start : Served := ⟨Pxeboot.start, fun _ => none⟩

/-- The client whose lease an event writes, and when. -/
def writesLease (s : State) : Event → Option (Mac × Instant)
  | .advance now _ =>
    match s.phase with
    | .leasing q => (s.leases.lookup q.mac).map (fun _ => (q.mac, now))
    | .storing q _ => some (q.mac, now)
    | _ => none
  | _ => none

def serve (cfg : Config) (w : Served) (e : Event) : Served where
  state := step cfg w.state e
  served :=
    match writesLease w.state e with
    | some (mac, now) => Function.update w.served mac (some now)
    | none => w.served

/-- The client has no address of its own yet. -/
def Newcomer (s : State) (mac : Mac) : Prop :=
  staticIp s.boot mac = none ∧ s.leases.lookup mac = none

/-- The server lets the request in hand go without an answer. -/
def Drops (cfg : Config) (s : State) (e : Event) (q : Request) : Prop :=
  s.phase.request = some q ∧ (step cfg s e).phase.request = none ∧ answer cfg s e = none

/-- A newcomer is left without an answer only when each address of the pool is held by another
client, under a lease that has not run out. -/
def RefusedFairly (cfg : Config) (w : Served) (e : Event) : Prop :=
  ∀ now stored q, e = .advance now stored → Drops cfg w.state e q → Newcomer w.state q.mac →
    ∀ ip, InPool cfg ip → ∃ m l, m ≠ q.mac ∧ w.state.leases.lookup m = some l ∧ l.ip = ip ∧
      now ≤ l.expires

/-- When a newcomer comes to a pool that is all in the table of leases, each address of it is
held by a client that was served within the lease time. -/
def NoneLapsed (cfg : Config) (w : Served) (e : Event) : Prop :=
  ∀ now stored q, e = .advance now stored → w.state.phase = .leasing q →
    Newcomer w.state q.mac → (∀ ip, InPool cfg ip → Leased w.state.leases ip) →
    ∀ ip, InPool cfg ip → ∃ m l t, w.state.leases.lookup m = some l ∧ l.ip = ip ∧
      w.served m = some t ∧ now ≤ t + Duration.fromSecs cfg.leaseSecs.toNat

/-- A lease runs out a lease time after its client was last served. -/
def Dated (cfg : Config) (w : Served) : Prop :=
  ∀ m l, w.state.leases.lookup m = some l →
    ∃ t, w.served m = some t ∧ l.expires = t + Duration.fromSecs cfg.leaseSecs.toNat

/-- What one event can do to the leases: nothing, or write one that starts now. -/
theorem step_leases (cfg : Config) (s : State) (e : Event) :
    (writesLease s e = none ∧ (step cfg s e).leases = s.leases) ∨
      ∃ mac now ip, writesLease s e = some (mac, now) ∧
        (step cfg s e).leases = s.leases.insert mac (lease cfg now ip) := by
  rcases advance_or_other e with ⟨now, stored, rfl⟩ | hne
  · have hcases := advance_cases cfg now stored s
    rw [step_advance]
    generalize advance cfg now stored s = s' at hcases ⊢
    cases hcases with
    | @renew q l hph hl =>
      exact .inr ⟨q.mac, now, l.ip, by simp only [writesLease, hph, hl, Option.map_some], rfl⟩
    | @store q ip hph => exact .inr ⟨q.mac, now, ip, by simp only [writesLease, hph], rfl⟩
    | allocate hph hl hf | refuse hph hl hf =>
      exact .inl ⟨by simp only [writesLease, hph, hl, Option.map_none], rfl⟩
    | rest hph | script hph | assign hph hs | choose hph hs | reply hph =>
      exact .inl ⟨by simp only [writesLease, hph], rfl⟩
  · refine .inl ⟨?_, (step_other cfg s e hne).1⟩
    cases e with
    | advance now stored => exact absurd rfl (hne now stored)
    | recv q => rfl
    | register mac entry => rfl
    | write i stored => rfl

theorem serve_dated (cfg : Config) (w : Served) (e : Event) (h : Dated cfg w) :
    Dated cfg (serve cfg w e) := by
  intro m l hl
  simp only [serve] at hl ⊢
  rcases step_leases cfg w.state e with ⟨hw, hs⟩ | ⟨mac, now, ip, hw, hs⟩
  · rw [hs] at hl
    rw [hw]
    exact h m l hl
  · rw [hs, Table.lookup_insert_if] at hl
    simp only [hw]
    by_cases hm : m = mac
    · rw [if_pos hm] at hl
      cases hl
      exact ⟨now, by rw [hm, Function.update_self], rfl⟩
    · rw [if_neg hm] at hl
      rw [Function.update_of_ne hm]
      exact h m l hl

/-- A request is dropped in one place only: where the pool has been searched in vain. -/
theorem drops_iff {cfg : Config} {s : State} {e : Event} {q : Request} :
    Drops cfg s e q ↔ ∃ now, Searches s e now q ∧ freeIp cfg s.leases = none := by
  constructor
  · intro h
    obtain ⟨hin, hout, hanswer⟩ := h
    rcases advance_or_other e with ⟨now, stored, rfl⟩ | hne
    · have hcases := advance_cases cfg now stored s
      rw [step_advance] at hout
      generalize advance cfg now stored s = s' at hcases hout
      cases hcases with
      | rest hph =>
        rw [hph] at hin
        cases hin
      | refuse hph hl hf =>
        rw [hph] at hin
        cases hin
        exact ⟨now, ⟨stored, rfl, hph, hl⟩, hf⟩
      | reply hph =>
        simp only [answer, hph] at hanswer
        cases hanswer
      | _ => cases hout
    · rcases phase_step cfg s hne with hsame | ⟨hidle, _⟩
      · rw [hsame, hin] at hout
        cases hout
      · rw [hidle] at hin
        cases hin
  · intro h
    obtain ⟨now, ⟨stored, rfl, hph, hl⟩, hf⟩ := h
    refine ⟨by rw [hph]; rfl, ?_, by simp only [answer, hph]⟩
    simp only [step_advance, advance, hph, hl, hf]
    rfl

theorem refusedFairly_iff {cfg : Config} {w : Served} (e : Event) (h : Dated cfg w) :
    RefusedFairly cfg w e ↔ NoneLapsed cfg w e := by
  constructor
  · intro hr now stored q he hph hq hall ip hin
    have hdrops : Drops cfg w.state e q :=
      drops_iff.mpr ⟨now, ⟨stored, he, hph, hq.2⟩, freeIp_eq_none.mpr hall⟩
    obtain ⟨m, l, _, hl, hip, hx⟩ := hr now stored q he hdrops hq ip hin
    obtain ⟨t, ht, hexp⟩ := h m l hl
    exact ⟨m, l, t, hl, hip, ht, hexp ▸ hx⟩
  · intro ha now stored q he hdrops hq ip hin
    obtain ⟨_, ⟨_, _, hph, _⟩, hfull⟩ := drops_iff.mp hdrops
    obtain ⟨m, l, t, hl, hip, ht, hle⟩ :=
      ha now stored q he hph hq (freeIp_eq_none.mp hfull) ip hin
    obtain ⟨t', ht', hexp⟩ := h m l hl
    rw [ht] at ht'
    cases ht'
    refine ⟨m, l, ?_, hl, hip, hexp ▸ hle⟩
    rintro rfl
    rw [hq.2] at hl
    cases hl

theorem served_dated (cfg : Config) (es : List Event) :
    Dated cfg (Run.exec (serve cfg) Served.start es) := by
  refine Run.exec_invariant (serve_dated cfg) ?_ es
  intro m l hl
  cases hl

theorem exec_serve_state (cfg : Config) (w : Served) (es : List Event) :
    (Run.exec (serve cfg) w es).state = Run.exec (step cfg) w.state es :=
  Run.exec_hom Served.state (fun _ _ => rfl) w es

/-- What time it is at an event, for the events that ask. -/
def clock : Event → Option Instant
  | .advance now _ => some now
  | _ => none

/-- Only these clients ask for an address. -/
def AskedBy (clients : Finset Mac) (e : Event) : Prop := ∀ q, e = .recv q → q.mac ∈ clients

/-- Who is in hand or has a lease has asked. -/
def Asked (clients : Finset Mac) (s : State) : Prop :=
  (∀ q, s.phase.request = some q → q.mac ∈ clients) ∧ ∀ m ∈ s.leases, m ∈ clients

theorem writesLease_request {s : State} {e : Event} {mac : Mac} {now : Instant}
    (h : writesLease s e = some (mac, now)) : ∃ q, s.phase.request = some q ∧ q.mac = mac := by
  cases e with
  | advance now' stored =>
    cases hph : s.phase with
    | leasing q =>
      simp only [writesLease, hph] at h
      obtain ⟨l, _, he⟩ := Option.map_eq_some_iff.mp h
      cases he
      exact ⟨q, rfl, rfl⟩
    | storing q ip =>
      simp only [writesLease, hph] at h
      cases h
      exact ⟨q, rfl, rfl⟩
    | _ => simp [writesLease, hph] at h
  | _ => cases h

theorem step_asked (cfg : Config) {clients : Finset Mac} {s : State} {e : Event}
    (h : Asked clients s) (he : AskedBy clients e) : Asked clients (step cfg s e) := by
  refine ⟨?_, ?_⟩
  · intro q hq
    rcases step_request hq with hold | ⟨_, hnew⟩
    · exact h.1 q hold
    · exact he q hnew
  · intro m hm
    rcases step_leases cfg s e with ⟨_, hs⟩ | ⟨mac, now, ip, hw, hs⟩
    · exact h.2 m (hs ▸ hm)
    · rw [hs, AList.mem_insert] at hm
      rcases hm with rfl | hm
      · obtain ⟨q, hq, rfl⟩ := writesLease_request hw
        exact h.1 q hq
      · exact h.2 m hm

/-- A pool that is all leased has at least as many lease holders as addresses. -/
theorem full_le (cfg : Config) {leases : LeaseTable}
    (h : ∀ ip, InPool cfg ip → Leased leases ip) :
    (poolIps cfg).length ≤ leases.keys.length := by
  have hsub : poolIps cfg ⊆ leases.pairs.map (fun p => p.2.ip) := by
    intro ip hip
    obtain ⟨m, l, hl, rfl⟩ := h ip (mem_poolIps.mp hip)
    exact List.mem_map.mpr ⟨(m, l), Table.mem_pairs.mpr hl, rfl⟩
  have hle := ((poolIps_nodup cfg).subperm hsub).length_le
  rw [List.length_map] at hle
  rw [← Table.pairs_keys, List.length_map]
  exact hle

/-- As long as no more clients ask than the pool has addresses, nobody is dropped. -/
theorem few_served (cfg : Config) {clients : Finset Mac}
    (hfew : clients.card ≤ (poolIps cfg).length) {s : State} (h : Asked clients s) {e : Event}
    {q : Request} : ¬ Drops cfg s e q := by
  intro hdrops
  obtain ⟨now, ⟨stored, rfl, hph, hnew⟩, hfull⟩ := drops_iff.mp hdrops
  have hq : q.mac ∈ clients := h.1 q (by rw [hph]; rfl)
  have hkeys : s.leases.keys.toFinset ⊆ clients.erase q.mac := by
    intro m hm
    have hm : m ∈ s.leases := AList.mem_keys.mpr (List.mem_toFinset.mp hm)
    refine Finset.mem_erase.mpr ⟨?_, h.2 m hm⟩
    rintro rfl
    exact AList.lookup_eq_none.mp hnew hm
  have hcard := Finset.card_le_card hkeys
  rw [List.toFinset_card_of_nodup s.leases.keys_nodup, Finset.card_erase_of_mem hq] at hcard
  have hle := full_le cfg (freeIp_eq_none.mp hfull)
  have hpos := Finset.card_pos.mpr ⟨q.mac, hq⟩
  omega

/-- So many clients come at time zero, one after the other, and at another time one more. -/
def rush (macs : List Mac) (late : Instant) (mac : Mac) : List Event :=
  macs.flatMap (visit 0) ++ ask late mac ++ [.advance late true]

theorem rush_ordered (macs : List Mac) (late : Instant) (mac : Mac) :
    ((rush macs late mac).filterMap clock).Pairwise (· ≤ ·) := by
  have hzero : ∀ t ∈ (macs.flatMap (visit 0)).filterMap clock, t = 0 := by
    intro t ht
    obtain ⟨e, he, hc⟩ := List.mem_filterMap.mp ht
    obtain ⟨m, _, he⟩ := List.mem_flatMap.mp he
    simp only [visit, ask, List.cons_append, List.nil_append, List.mem_cons, List.not_mem_nil,
      or_false] at he
    rcases he with rfl | rfl | rfl | rfl | rfl | rfl <;> cases hc <;> rfl
  rw [rush, List.append_assoc, List.filterMap_append, List.pairwise_append]
  refine ⟨?_, ?_, ?_⟩
  · exact List.pairwise_of_forall_mem_list
      (fun a ha b _ => Nat.le_trans (Nat.le_of_eq (hzero a ha)) (Nat.zero_le b))
  · change List.Pairwise (· ≤ ·) [late, late, late]
    simp
  · intro a ha b _
    exact Nat.le_trans (Nat.le_of_eq (hzero a ha)) (Nat.zero_le b)

theorem rush_askedBy {macs : List Mac} {late : Instant} {mac : Mac} {clients : Finset Mac}
    (hmacs : ∀ m ∈ macs, m ∈ clients) (hmac : mac ∈ clients) :
    ∀ e ∈ rush macs late mac, AskedBy clients e := by
  intro e he q hq
  subst hq
  rw [rush, List.append_assoc, List.mem_append] at he
  rcases he with he | he
  · obtain ⟨m, hm, he⟩ := List.mem_flatMap.mp he
    have hq : q = discoverOf m := by simpa [visit, ask] using he
    rw [hq, discoverOf_mac]
    exact hmacs m hm
  · have hq : q = discoverOf mac := by simpa [ask] using he
    rw [hq, discoverOf_mac]
    exact hmac

/-- One client more than the pool has addresses is dropped, however late it comes. -/
theorem rush_dropped (cfg : Config) {macs : List Mac} {mac : Mac} (late : Instant)
    (hnodup : (macs ++ [mac]).Nodup) (hlen : macs.length = (poolIps cfg).length) :
    let s := run cfg (macs.flatMap (visit 0) ++ ask late mac)
    Drops cfg s (.advance late true) (discoverOf mac) ∧ Newcomer s mac ∧
      ∀ m l, s.leases.lookup m = some l → l.expires = Duration.fromSecs cfg.leaseSecs.toNat := by
  rw [List.nodup_append] at hnodup
  have hmac : mac ∉ macs := fun hin => hnodup.2.2 mac hin mac List.mem_cons_self rfl
  have hcrowd := crowd_served cfg (s := start) rfl rfl hnodup.1 (fun _ _ => rfl)
    (Nat.le_of_eq hlen)
  obtain ⟨hphase, hleases, hboot⟩ :=
    exec_ask cfg late hcrowd.idle ((hcrowd.statics mac).trans rfl)
  rw [← Run.exec_append] at hphase hleases hboot
  have hnone : (run cfg (macs.flatMap (visit 0) ++ ask late mac)).leases.lookup mac = none :=
    hleases ▸ hcrowd.new mac hmac
  refine ⟨?_, ⟨(hboot mac).trans (hcrowd.statics mac), hnone⟩, ?_⟩
  · refine drops_iff.mpr ⟨late, ⟨true, rfl, hphase, ?_⟩, ?_⟩
    · rw [discoverOf_mac]
      exact hnone
    · rw [freeIp_eq_none]
      intro ip hin
      rw [run, hleases, hcrowd.taken, hlen, List.take_length]
      exact mem_poolIps.mpr hin
  · intro m l hl
    rw [run, hleases] at hl
    exact hcrowd.dated m l hl

theorem crowd_of_card {clients : Finset Mac} {n : Nat} (h : n < clients.card) :
    ∃ macs mac, (macs ++ [mac]).Nodup ∧ macs.length = n ∧ (∀ m ∈ macs, m ∈ clients) ∧
      mac ∈ clients := by
  rw [← Finset.length_toList] at h
  refine ⟨clients.toList.take n, clients.toList[n], ?_, List.length_take_of_le (Nat.le_of_lt h),
    fun m hm => Finset.mem_toList.mp (List.mem_of_mem_take hm),
    Finset.mem_toList.mp (List.getElem_mem h)⟩
  rw [← List.take_succ_eq_append_getElem h]
  exact clients.nodup_toList.sublist (List.take_sublist _ _)

/-- Clients are left without an address fairly: in a run, exactly when each time a newcomer
comes to a pool that is all in the table of leases, its addresses are held by clients served
within the lease time; and in every run with a clock in order and so many clients, exactly
when these are no more than the pool has addresses. -/
theorem refused_fairly_iff (cfg : Config) :
    (∀ es, Run.Along (serve cfg) (RefusedFairly cfg) Served.start es ↔
      Run.Along (serve cfg) (NoneLapsed cfg) Served.start es) ∧
    ∀ clients : Finset Mac,
      (∀ es, (es.filterMap clock).Pairwise (· ≤ ·) → (∀ e ∈ es, AskedBy clients e) →
        Run.Along (serve cfg) (RefusedFairly cfg) Served.start es) ↔
      clients.card ≤ (poolIps cfg).length := by
  refine ⟨fun es => Run.along_congr (fun pre e _ _ =>
    refusedFairly_iff e (served_dated cfg pre)), ?_⟩
  intro clients
  constructor
  · intro h
    by_contra hmany
    obtain ⟨macs, mac, hnodup, hlen, hmacs, hmac⟩ := crowd_of_card (Nat.not_le.mp hmany)
    let late := Duration.fromSecs cfg.leaseSecs.toNat + 1
    obtain ⟨hdrops, hnew, hdated⟩ := rush_dropped cfg late hnodup hlen
    have hfair := h (rush macs late mac) (rush_ordered macs late mac) (rush_askedBy hmacs hmac)
      (macs.flatMap (visit 0) ++ ask late mac) (.advance late true) [] rfl late true
      (discoverOf mac) rfl
    rw [exec_serve_state, discoverOf_mac] at hfair
    obtain ⟨m, l, _, hl, _, hx⟩ := hfair hdrops hnew cfg.poolStart ⟨UInt32.le_refl _, cfg.pool⟩
    rw [hdated m l hl] at hx
    exact absurd hx (Nat.not_le.mpr (Nat.lt_succ_self _))
  · intro hfew es _ hasked pre e post hes now stored q he hdrops
    have hpre : ∀ e ∈ pre, AskedBy clients e :=
      fun e he => hasked e (by rw [hes]; exact List.mem_append_left _ he)
    have hstart : Asked clients start := by
      refine ⟨?_, fun m hm => absurd hm (AList.notMem_empty m)⟩
      intro q hq
      cases hq
    have hall : Asked clients (Run.exec (step cfg) start pre) :=
      Run.exec_invariant_of_all (fun _ _ => step_asked cfg) hstart hpre
    rw [exec_serve_state] at hdrops
    exact absurd hdrops (few_served cfg hfew hall)

/-- A pool of a single address. -/
def narrowConfig : Config :=
  { seedConfig with poolEnd := ⟨0x0A2A0064⟩, pool := by decide }

/-- Client 1 takes the only address; two hours later its lease of one hour is long over,
and client 2 asks. -/
def latecomer : List Event :=
  [.recv (discover 1), .advance 0 true, .advance 0 true, .advance 0 true, .advance 0 true,
    .advance 0 true, .recv (discover 2), .advance (Duration.fromSecs 7200) true,
    .advance (Duration.fromSecs 7200) true, .advance (Duration.fromSecs 7200) true]

theorem latecomer_refused :
    (latecomer.filterMap clock).Pairwise (· ≤ ·) ∧
      ¬ Run.Along (serve narrowConfig) (RefusedFairly narrowConfig) Served.start latecomer := by
  refine ⟨by decide, ?_⟩
  intro h
  obtain ⟨m, l, _, hl, _, hx⟩ := h (latecomer.take 9) (.advance (Duration.fromSecs 7200) true) []
    rfl (Duration.fromSecs 7200) true (discover 2) rfl ⟨rfl, rfl, rfl⟩ ⟨rfl, rfl⟩ ⟨0x0A2A0064⟩
    (by decide)
  have hone : (Run.exec (serve narrowConfig) Served.start (latecomer.take 9)).state.leases.pairs =
      [((discover 1).mac, lease narrowConfig 0 ⟨0x0A2A0064⟩)] := rfl
  have hp := Table.mem_pairs.mpr hl
  rw [hone, List.mem_singleton] at hp
  cases hp
  exact absurd hx (by decide)

end Hivebus.Proofs.Expiry
