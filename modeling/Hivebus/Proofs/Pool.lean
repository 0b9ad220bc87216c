import Hivebus.Proofs.Leases

namespace Hivebus.Proofs.Pool
open Lib Proto Pxeboot Leases

/-- The address lies in the pool, both ends included. -/
def InPool (cfg : Config) (ip : Ipv4Addr) : Prop :=
  cfg.poolStart.bits ≤ ip.bits ∧ ip.bits ≤ cfg.poolEnd.bits

/-- Somebody holds the address. -/
def Leased (leases : LeaseTable) (ip : Ipv4Addr) : Prop :=
  ∃ m l, leases.lookup m = some l ∧ l.ip = ip

instance (cfg : Config) (ip : Ipv4Addr) : Decidable (InPool cfg ip) :=
  inferInstanceAs (Decidable (_ ∧ _))

/-- The numbers the pool is listed by fit an address. -/
theorem mem_poolRange {cfg : Config} {n : Nat} :
    n ∈ List.range' cfg.poolStart.bits.toNat
        (cfg.poolEnd.bits.toNat + 1 - cfg.poolStart.bits.toNat) ↔
      cfg.poolStart.bits.toNat ≤ n ∧ n ≤ cfg.poolEnd.bits.toNat := by
  rw [List.mem_range'_1]
  omega

theorem toNat_poolIp {cfg : Config} {n : Nat} (h : n ≤ cfg.poolEnd.bits.toNat) :
    (UInt32.ofNat n).toNat = n := by
  have hend := cfg.poolEnd.bits.toNat_lt
  rw [UInt32.toNat_ofNat', Nat.mod_eq_of_lt (by omega)]

theorem mem_poolIps {cfg : Config} {ip : Ipv4Addr} : ip ∈ poolIps cfg ↔ InPool cfg ip := by
  rw [InPool, UInt32.le_iff_toNat_le, UInt32.le_iff_toNat_le, poolIps, List.mem_map]
  constructor
  · intro hex
    obtain ⟨n, hn, rfl⟩ := hex
    have hr := mem_poolRange.mp hn
    rw [toNat_poolIp hr.2]
    exact hr
  · intro h
    exact ⟨ip.bits.toNat, mem_poolRange.mpr h, by rw [UInt32.ofNat_toNat]⟩

theorem mem_inUse {leases : LeaseTable} {ip : Ipv4Addr} :
    (leases.pairs.map (fun p => p.2.ip)).contains ip = true ↔ Leased leases ip := by
  rw [List.contains_iff_mem, List.mem_map]
  constructor
  · intro hex
    obtain ⟨⟨m, l⟩, hp, he⟩ := hex
    exact ⟨m, l, Table.mem_pairs.mp hp, he⟩
  · intro hex
    obtain ⟨m, l, hl, he⟩ := hex
    exact ⟨(m, l), Table.mem_pairs.mpr hl, he⟩

/-- The search gives up exactly when the whole pool is leased. -/
theorem freeIp_eq_none {cfg : Config} {leases : LeaseTable} :
    freeIp cfg leases = none ↔ ∀ ip, InPool cfg ip → Leased leases ip := by
  simp only [freeIp, List.find?_eq_none, Bool.not_eq_true', Bool.not_eq_false, mem_inUse, mem_poolIps]

/-- The pool is tried in ascending order. -/
theorem poolIps_sorted (cfg : Config) :
    (poolIps cfg).Pairwise (fun a b => a.bits < b.bits) := by
  rw [poolIps, List.pairwise_map]
  refine List.Pairwise.imp_of_mem ?_ List.pairwise_lt_range'
  intro a b ha hb hab
  rw [UInt32.lt_iff_toNat_lt, toNat_poolIp (mem_poolRange.mp ha).2,
    toNat_poolIp (mem_poolRange.mp hb).2]
  exact hab

/-- What the search finds is in the pool, held by nobody, and the least such address. -/
theorem freeIp_least {cfg : Config} {leases : LeaseTable} {ip : Ipv4Addr}
    (h : freeIp cfg leases = some ip) :
    InPool cfg ip ∧ ¬ Leased leases ip ∧
      ∀ b, InPool cfg b → b.bits < ip.bits → Leased leases b := by
  obtain ⟨hp, as, bs, hl, has⟩ := List.find?_eq_some_iff_append.mp h
  have hmem : ip ∈ poolIps cfg := List.mem_of_find?_eq_some h
  refine ⟨mem_poolIps.mp hmem, ?_, ?_⟩
  · rw [← mem_inUse]
    simpa using hp
  · intro b hb hlt
    have hs := poolIps_sorted cfg
    rw [← mem_poolIps, hl] at hb
    rw [hl, List.pairwise_append] at hs
    rcases List.mem_append.mp hb with hb | hb
    · exact mem_inUse.mp (by simpa using has b hb)
    · rcases List.mem_cons.mp hb with rfl | hb
      · exact absurd hlt (UInt32.lt_irrefl _)
      · exact absurd hlt (UInt32.lt_asymm ((List.pairwise_cons.mp hs.2.1).1 b hb))

theorem freeIp_eq_some {cfg : Config} {leases : LeaseTable} {ip : Ipv4Addr} :
    freeIp cfg leases = some ip ↔
      InPool cfg ip ∧ ¬ Leased leases ip ∧
      ∀ b, InPool cfg b → b.bits < ip.bits → Leased leases b := by
  refine ⟨freeIp_least, ?_⟩
  intro h
  obtain ⟨hin, hfree, hleast⟩ := h
  cases hf : freeIp cfg leases with
  | none => exact absurd (freeIp_eq_none.mp hf ip hin) hfree
  | some ip' =>
    obtain ⟨hin', hfree', hleast'⟩ := freeIp_least hf
    have hle : ¬ ip'.bits < ip.bits := fun hlt => hfree' (hleast ip' hin' hlt)
    have hge : ¬ ip.bits < ip'.bits := fun hlt => hfree (hleast' ip hin hlt)
    have he : ip'.bits = ip.bits :=
      UInt32.le_antisymm (UInt32.not_lt.mp hge) (UInt32.not_lt.mp hle)
    exact congrArg some (congrArg Ipv4Addr.mk he)

/-- The step at which the pool is searched for a client that has no lease. -/
def Searches (s : State) (e : Event) (now : Instant) (q : Request) : Prop :=
  ∃ stored, e = .advance now stored ∧ s.phase = .leasing q ∧ s.leases.lookup q.mac = none

end Hivebus.Proofs.Pool
