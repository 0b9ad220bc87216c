import Mathlib.Data.List.Induction
import Hivebus.Proofs.Offers

namespace Hivebus.Proofs.Crowd
open Lib Proto Pxeboot Leases Pool Offers

/-- A DISCOVER of a client. -/
def discoverOf (mac : Mac) : Request where
  kind := .discover
  xid := 1
  flags := 0
  chaddr := ⟨mac.octets ++ List.replicate 10 0, by rw [List.length_append, mac.size]; rfl⟩

@[simp] theorem discoverOf_mac (mac : Mac) : (discoverOf mac).mac = mac := by
  obtain ⟨octets, size⟩ := mac
  simp only [Request.mac, discoverOf, List.take_left' size]

/-- A client asks, and its request gets as far as the leases. -/
def ask (now : Instant) (mac : Mac) : List Event :=
  [.recv (discoverOf mac), .advance now true, .advance now true]

/-- A client asks, and nothing else goes on until it has its answer. -/
def visit (now : Instant) (mac : Mac) : List Event :=
  ask now mac ++ [.advance now true, .advance now true, .advance now true]

theorem step_advance (cfg : Config) (s : State) (now : Instant) (stored : Bool) :
    step cfg s (.advance now stored) = advance cfg now stored s := rfl

theorem recv_idle (cfg : Config) {s : State} (hidle : s.phase = .idle) (q : Request) :
    ∃ entry, (step cfg s (.recv q)).phase = .scripting q entry ∧
      (step cfg s (.recv q)).leases = s.leases := by
  simp only [step, hidle]
  cases s.boot.lookup q.mac with
  | none => exact ⟨_, rfl, rfl⟩
  | some entry => exact ⟨entry, rfl, rfl⟩

/-- How far a request gets in three steps when its client has no static address. -/
theorem exec_ask (cfg : Config) {s : State} (now : Instant) {mac : Mac} (hidle : s.phase = .idle)
    (hstatic : staticIp s.boot mac = none) :
    (Run.exec (step cfg) s (ask now mac)).phase = .leasing (discoverOf mac) ∧
      (Run.exec (step cfg) s (ask now mac)).leases = s.leases ∧
      ∀ m, staticIp (Run.exec (step cfg) s (ask now mac)).boot m = staticIp s.boot m := by
  have hboot : ∀ m, staticIp (Run.exec (step cfg) s (ask now mac)).boot m =
      staticIp s.boot m := by
    intro m
    simp only [ask, Run.exec_cons, Run.exec_nil, static_step]
  obtain ⟨entry, hphase, hleases⟩ := recv_idle cfg hidle (discoverOf mac)
  have hnone : staticIp (step cfg s (.recv (discoverOf mac))).boot mac = none := by
    rw [static_step]
    exact hstatic
  refine ⟨?_, ?_, hboot⟩
  · simp only [ask, Run.exec_cons, Run.exec_nil, step_advance, advance, hphase, discoverOf_mac,
      hnone]
  · simp only [ask, Run.exec_cons, Run.exec_nil, step_advance, advance, hphase, discoverOf_mac,
      hnone, hleases]

/-- What a visit leaves behind when there is an address for the client. -/
theorem exec_visit (cfg : Config) {s : State} (now : Instant) {mac : Mac} {ip : Ipv4Addr}
    (hidle : s.phase = .idle) (hstatic : staticIp s.boot mac = none)
    (hnew : s.leases.lookup mac = none) (hfree : freeIp cfg s.leases = some ip) :
    (Run.exec (step cfg) s (visit now mac)).phase = .idle ∧
      (Run.exec (step cfg) s (visit now mac)).leases = s.leases.insert mac (lease cfg now ip) ∧
      ∀ m, staticIp (Run.exec (step cfg) s (visit now mac)).boot m = staticIp s.boot m := by
  obtain ⟨hphase, hleases, hboot⟩ := exec_ask cfg now hidle hstatic
  rw [visit, Run.exec_append]
  generalize Run.exec (step cfg) s (ask now mac) = s' at hphase hleases hboot ⊢
  rw [← hleases] at hnew hfree ⊢
  have hnew : s'.leases.lookup (discoverOf mac).mac = none := by
    rw [discoverOf_mac]
    exact hnew
  refine ⟨?_, ?_, ?_⟩
  · simp only [Run.exec_cons, Run.exec_nil, step_advance, advance, hphase, discoverOf_mac, hnew,
      hfree]
  · simp only [Run.exec_cons, Run.exec_nil, step_advance, advance, hphase, discoverOf_mac, hnew,
      hfree]
  · intro m
    simp only [Run.exec_cons, Run.exec_nil, static_step]
    exact hboot m

theorem leased_insert {leases : LeaseTable} {mac : Mac} {l : Lease}
    (h : leases.lookup mac = none) (ip : Ipv4Addr) :
    Leased (leases.insert mac l) ip ↔ Leased leases ip ∨ ip = l.ip := by
  simp only [Leased, Table.lookup_insert_if]
  constructor
  · intro hex
    obtain ⟨m, l', hl, rfl⟩ := hex
    split at hl
    · cases hl
      exact .inr rfl
    · exact .inl ⟨m, l', hl, rfl⟩
  · intro hor
    rcases hor with ⟨m, l', hl, rfl⟩ | rfl
    · refine ⟨m, l', ?_, rfl⟩
      rw [if_neg]
      · exact hl
      · rintro rfl
        rw [h] at hl
        cases hl
    · exact ⟨mac, l, if_pos rfl, rfl⟩

theorem poolIps_nodup (cfg : Config) : (poolIps cfg).Nodup :=
  (poolIps_sorted cfg).imp (fun h he => by rw [he] at h; exact absurd h (UInt32.lt_irrefl _))

/-- With the first so many addresses of the pool taken and no others, the next one is found. -/
theorem freeIp_next {cfg : Config} {leases : LeaseTable} {k : Nat} (hk : k < (poolIps cfg).length)
    (h : ∀ ip, Leased leases ip ↔ ip ∈ (poolIps cfg).take k) :
    freeIp cfg leases = (poolIps cfg)[k]? := by
  have hsplit : poolIps cfg =
      (poolIps cfg).take k ++ (poolIps cfg)[k] :: (poolIps cfg).drop (k + 1) := by
    rw [← List.drop_eq_getElem_cons hk, List.take_append_drop]
  have hnew : (poolIps cfg)[k] ∉ (poolIps cfg).take k := by
    have hnodup := poolIps_nodup cfg
    rw [hsplit, List.nodup_append] at hnodup
    intro hin
    exact hnodup.2.2 _ hin _ List.mem_cons_self rfl
  rw [List.getElem?_eq_getElem hk, freeIp, List.find?_eq_some_iff_append]
  refine ⟨?_, _, _, hsplit, ?_⟩
  · rw [Bool.not_eq_true', ← Bool.not_eq_true, mem_inUse, h]
    exact hnew
  · intro ip hip
    rw [Bool.not_not, mem_inUse, h]
    exact hip

/-- The server after visits of so many clients, none of which had been there before: each
holds an address, and the addresses held are the first ones of the pool. -/
structure Crowded (cfg : Config) (s₀ : State) (macs : List Mac) (s : State) : Prop where
  idle : s.phase = .idle
  new : ∀ m, m ∉ macs → s.leases.lookup m = none
  taken : ∀ ip, Leased s.leases ip ↔ ip ∈ (poolIps cfg).take macs.length
  dated : ∀ m l, s.leases.lookup m = some l → l.expires = Duration.fromSecs cfg.leaseSecs.toNat
  statics : ∀ m, staticIp s.boot m = staticIp s₀.boot m

theorem Crowded.visit {cfg : Config} {s₀ s : State} {macs : List Mac} (h : Crowded cfg s₀ macs s)
    {mac : Mac} (hmac : mac ∉ macs) (hstatic : staticIp s₀.boot mac = none)
    (hlen : macs.length < (poolIps cfg).length) :
    Crowded cfg s₀ (macs ++ [mac]) (Run.exec (step cfg) s (visit 0 mac)) := by
  have hfree : freeIp cfg s.leases = some (poolIps cfg)[macs.length] := by
    rw [freeIp_next hlen h.taken, List.getElem?_eq_getElem hlen]
  obtain ⟨hidle, hleases, hboot⟩ := exec_visit cfg 0 h.idle ((h.statics mac).trans hstatic)
    (h.new mac hmac) hfree
  refine ⟨hidle, ?_, ?_, ?_, fun m => (hboot m).trans (h.statics m)⟩
  · intro m hm
    rw [List.mem_append, List.mem_singleton, not_or] at hm
    rw [hleases, Table.lookup_insert_if, if_neg hm.2]
    exact h.new m hm.1
  · intro ip
    rw [hleases, leased_insert (h.new mac hmac), h.taken, lease_ip, List.length_append,
      List.length_singleton, List.take_succ_eq_append_getElem hlen, List.mem_append,
      List.mem_singleton]
  · intro m l hl
    rw [hleases, Table.lookup_insert_if] at hl
    split at hl
    · cases hl
      exact Nat.zero_add _
    · exact h.dated m l hl

/-- A crowd no larger than the pool is served one by one. -/
theorem crowd_served (cfg : Config) {s : State} (hidle : s.phase = .idle) (hnew : s.leases = ∅)
    {macs : List Mac} (hnodup : macs.Nodup) (hstatic : ∀ m ∈ macs, staticIp s.boot m = none)
    (hlen : macs.length ≤ (poolIps cfg).length) :
    Crowded cfg s macs (Run.exec (step cfg) s (macs.flatMap (visit 0))) := by
  induction macs using List.reverseRecOn with
  | nil =>
    have hnone : ∀ m, (Run.exec (step cfg) s ([].flatMap (visit 0))).leases.lookup m = none := by
      intro m
      rw [List.flatMap_nil, Run.exec_nil, hnew]
      rfl
    refine ⟨hidle, fun m _ => hnone m, ?_, ?_, fun _ => rfl⟩
    · intro ip
      refine iff_of_false ?_ List.not_mem_nil
      rintro ⟨m, l, hl, _⟩
      rw [hnone] at hl
      cases hl
    · intro m l hl
      rw [hnone] at hl
      cases hl
  | append_singleton macs mac ih =>
    rw [List.nodup_append] at hnodup
    rw [List.length_append] at hlen
    have hmac : mac ∉ macs := fun hin => hnodup.2.2 mac hin mac List.mem_cons_self rfl
    rw [List.flatMap_append, List.flatMap_singleton, Run.exec_append]
    exact (ih hnodup.1 (fun m hm => hstatic m (List.mem_append_left _ hm))
      (Nat.le_of_succ_le hlen)).visit hmac
      (hstatic mac (List.mem_append_right _ List.mem_cons_self)) hlen

end Hivebus.Proofs.Crowd
