import Hivebus.Proofs.Crowd

namespace Hivebus.Proofs.Reservations
open Lib Proto Pxeboot Leases Pool Offers Crowd

/-- The server's own address, its gateway's, or one registered for another client. -/
def Reserved (cfg : Config) (boot : BootTable) (mac : Mac) (ip : Ipv4Addr) : Prop :=
  ip = cfg.serverIp ∨ cfg.gateway = some ip ∨ ∃ m, m ≠ mac ∧ staticIp boot m = some ip

/-- An address that the server takes from the pool for a client is reserved for nobody else. -/
def PicksUnreserved (cfg : Config) (s : State) (e : Event) : Prop :=
  ∀ now q ip, Searches s e now q → (step cfg s e).phase = .storing q ip →
    ¬ Reserved cfg s.boot q.mac ip

/-- When a client comes to the pool, each reserved address of it that is in no lease has an
address before it that is in none either. -/
def ReservedBehind (cfg : Config) (s : State) (e : Event) : Prop :=
  ∀ now q ip, Searches s e now q → InPool cfg ip → Reserved cfg s.boot q.mac ip →
    ¬ Leased s.leases ip → ∃ b, InPool cfg b ∧ b.bits < ip.bits ∧ ¬ Leased s.leases b

/-- What a client is given that comes to the pool. -/
theorem searches_gives {cfg : Config} {s : State} {e : Event} {now : Instant} {q : Request}
    (h : Searches s e now q) (ip : Ipv4Addr) :
    (step cfg s e).phase = .storing q ip ↔ freeIp cfg s.leases = some ip := by
  obtain ⟨stored, rfl, hphase, hnew⟩ := h
  simp only [step_advance, advance, hphase, hnew]
  cases freeIp cfg s.leases <;> simp

theorem picksUnreserved_iff (cfg : Config) (s : State) (e : Event) :
    PicksUnreserved cfg s e ↔ ReservedBehind cfg s e := by
  constructor
  · intro h now q ip hs hin hr hfree
    by_contra hnone
    apply h now q ip hs _ hr
    rw [searches_gives hs, freeIp_eq_some]
    refine ⟨hin, hfree, ?_⟩
    intro b hb hlt
    by_contra hn
    exact hnone ⟨b, hb, hlt, hn⟩
  · intro h now q ip hs hgiven hr
    rw [searches_gives hs] at hgiven
    obtain ⟨hin, hfree, hleast⟩ := freeIp_least hgiven
    obtain ⟨b, hb, hlt, hn⟩ := h now q ip hs hin hr hfree
    exact hn (hleast b hb hlt)

/-- All addresses that clients are registered with are of one kind. -/
def Registers (kind : Ipv4Addr → Prop) (e : Event) : Prop :=
  ∀ mac entry ip, e = .register mac entry → entry.ip = some ip → kind ip

theorem static_kind (cfg : Config) {kind : Ipv4Addr → Prop} {es : List Event}
    (h : ∀ e ∈ es, Registers kind e) {m : Mac} {ip : Ipv4Addr}
    (hs : staticIp (run cfg es).boot m = some ip) : kind ip := by
  have hstep : ∀ s e, (∀ m ip, staticIp s.boot m = some ip → kind ip) → Registers kind e →
      ∀ m ip, staticIp (step cfg s e).boot m = some ip → kind ip := by
    intro s e hI hr m ip hs
    rw [static_step] at hs
    split at hs
    · next mac entry =>
      split at hs
      · exact hr mac entry ip rfl hs
      · exact hI m ip hs
    · exact hI m ip hs
  have hstart : ∀ m ip, staticIp start.boot m = some ip → kind ip := by
    intro m ip hs
    cases hs
  exact Run.exec_invariant_of_all hstep hstart h m ip hs

/-- The client whose hardware address is this number. -/
def macOf (n : Nat) : Mac := ⟨beBytes 6 n, length_beBytes 6 n⟩

theorem macOf_inj {a b : Nat} (ha : a < 256 ^ 6) (hb : b < 256 ^ 6) (h : macOf a = macOf b) :
    a = b := by
  have hbytes := congrArg (fun m => ofBeBytes m.octets) h
  simpa [macOf, ofBeBytes_beBytes ha, ofBeBytes_beBytes hb] using hbytes

theorem length_poolIps (cfg : Config) : (poolIps cfg).length ≤ 2 ^ 32 := by
  have hend := cfg.poolEnd.bits.toNat_lt
  rw [poolIps, List.length_map, List.length_range']
  omega

/-- An operator registers a client with a static address. -/
def booking (mac : Mac) (ip : Ipv4Addr) : Event := .register mac ⟨"", some ip, none, ∅⟩

/-- So many clients come, one after the other, and then one more asks. -/
def rush (k : Nat) : List Event :=
  ((List.range k).map macOf).flatMap (visit 0) ++ ask 0 (macOf k)

theorem registers_rush {kind : Ipv4Addr → Prop} {k : Nat} : ∀ e ∈ rush k, Registers kind e := by
  intro e he mac entry ip hreg
  subst hreg
  simp [rush, visit, ask] at he

/-- The one that comes after the crowd is given the next address, whoever it is reserved for. -/
theorem rush_given (cfg : Config) {s : State} (hidle : s.phase = .idle) (hnew : s.leases = ∅)
    {k : Nat} {ip : Ipv4Addr} (hk : (poolIps cfg)[k]? = some ip)
    (hstatic : ∀ n, n ≤ k → staticIp s.boot (macOf n) = none)
    (h : PicksUnreserved cfg (Run.exec (step cfg) s (rush k)) (.advance 0 true)) :
    ¬ Reserved cfg s.boot (macOf k) ip := by
  obtain ⟨hlen, _⟩ := List.getElem?_eq_some_iff.mp hk
  have hsmall : k < 256 ^ 6 :=
    Nat.lt_of_lt_of_le hlen (Nat.le_trans (length_poolIps cfg) (by decide))
  have hnodup : ((List.range k).map macOf).Nodup := by
    refine List.nodup_range.map_on ?_
    intro a ha b hb hab
    exact macOf_inj (Nat.lt_trans (List.mem_range.mp ha) hsmall)
      (Nat.lt_trans (List.mem_range.mp hb) hsmall) hab
  have hlast : macOf k ∉ (List.range k).map macOf := by
    intro hin
    obtain ⟨n, hn, he⟩ := List.mem_map.mp hin
    have hlt := List.mem_range.mp hn
    exact Nat.ne_of_lt hlt (macOf_inj (Nat.lt_trans hlt hsmall) hsmall he)
  have hcrowd := crowd_served cfg hidle hnew hnodup (by
    intro m hm
    obtain ⟨n, hn, rfl⟩ := List.mem_map.mp hm
    exact hstatic n (Nat.le_of_lt (List.mem_range.mp hn))) (by
    rw [List.length_map, List.length_range]
    exact Nat.le_of_lt hlen)
  obtain ⟨hphase, hleases, hboot⟩ := exec_ask cfg 0 hcrowd.idle
    ((hcrowd.statics (macOf k)).trans (hstatic k (Nat.le_refl k)))
  have hfree := freeIp_next (by rwa [List.length_map, List.length_range]) hcrowd.taken
  rw [List.length_map, List.length_range, hk] at hfree
  rw [rush, Run.exec_append] at h
  generalize Run.exec (step cfg) s (((List.range k).map macOf).flatMap (visit 0)) = s₁ at *
  generalize Run.exec (step cfg) s₁ (ask 0 (macOf k)) = s₂ at *
  have hs : Searches s₂ (.advance 0 true) 0 (discoverOf (macOf k)) :=
    ⟨true, rfl, hphase, by rw [discoverOf_mac, hleases]; exact hcrowd.new _ hlast⟩
  have hnot := h 0 _ ip hs ((searches_gives hs ip).mpr (by rw [hleases]; exact hfree))
  rw [discoverOf_mac] at hnot
  rintro (hserver | hgateway | ⟨m, hm, hreg⟩)
  · exact hnot (.inl hserver)
  · exact hnot (.inr (.inl hgateway))
  · exact hnot (.inr (.inr ⟨m, hm, by rw [hboot, hcrowd.statics]; exact hreg⟩))

/-- What the pool search gives away is reserved for nobody else: in a run, exactly when each
time a client comes to the pool the reserved addresses of it are leased or come behind one
that is not; and in every run of a server whose operators register addresses of some kind,
exactly when the pool has neither such an address nor the server's or the gateway's own. -/
theorem picks_unreserved_iff (cfg : Config) :
    (∀ es, Run.Along (step cfg) (PicksUnreserved cfg) start es ↔
      Run.Along (step cfg) (ReservedBehind cfg) start es) ∧
    ∀ kind : Ipv4Addr → Prop,
      (∀ es, (∀ e ∈ es, Registers kind e) →
        Run.Along (step cfg) (PicksUnreserved cfg) start es) ↔
      ∀ ip, InPool cfg ip → ip ≠ cfg.serverIp ∧ cfg.gateway ≠ some ip ∧ ¬ kind ip := by
  refine ⟨fun es => Run.along_congr (fun pre e _ _ => picksUnreserved_iff cfg _ e), ?_⟩
  intro kind
  constructor
  · intro h ip hin
    obtain ⟨k, hk⟩ := List.getElem?_of_mem (mem_poolIps.mpr hin)
    obtain ⟨hlen, _⟩ := List.getElem?_eq_some_iff.mp hk
    have hsmall : k + 1 < 256 ^ 6 := Nat.lt_of_le_of_lt
      (Nat.le_trans hlen (length_poolIps cfg)) (by decide)
    have hfree := rush_given cfg (s := start) rfl rfl hk (fun _ _ => rfl)
      (h (rush k ++ [.advance 0 true]) (by
        intro e he
        rcases List.mem_append.mp he with he | he
        · exact registers_rush e he
        · rw [List.mem_singleton.mp he]
          intro mac entry ip' hreg
          cases hreg) (rush k) (.advance 0 true) [] rfl)
    refine ⟨fun hs => hfree (.inl hs), fun hg => hfree (.inr (.inl hg)), ?_⟩
    intro hkind
    have hother : ∀ n, n ≤ k → macOf n ≠ macOf (k + 1) := by
      intro n hn he
      have heq := macOf_inj (Nat.lt_of_le_of_lt (Nat.le_succ_of_le hn) hsmall) hsmall he
      omega
    have hgiven := rush_given cfg (s := step cfg start (booking (macOf (k + 1)) ip)) rfl rfl hk (by
        intro n hn
        rw [static_step]
        exact if_neg (hother n hn))
      (h (booking (macOf (k + 1)) ip :: rush k ++ [.advance 0 true]) (by
        intro e he
        rcases List.mem_append.mp he with he | he
        · rcases List.mem_cons.mp he with rfl | he
          · intro mac entry ip' hreg hip
            unfold booking at hreg
            cases hreg
            cases hip
            exact hkind
          · exact registers_rush e he
        · rw [List.mem_singleton.mp he]
          intro mac entry ip' hreg
          cases hreg) (booking (macOf (k + 1)) ip :: rush k) (.advance 0 true) [] rfl)
    refine hgiven (.inr (.inr ⟨macOf (k + 1), fun he => hother k (Nat.le_refl k) he.symm, ?_⟩))
    rw [static_step]
    exact if_pos rfl
  · intro h es hreg pre e post hes now q ip hs hgiven hr
    rw [searches_gives hs] at hgiven
    obtain ⟨hserver, hgateway, hkind⟩ := h ip (freeIp_least hgiven).1
    rcases hr with rfl | hg | ⟨m, _, hm⟩
    · exact hserver rfl
    · exact hgateway hg
    · have hpre : ∀ e ∈ pre, Registers kind e := fun e he =>
        hreg e (by rw [hes]; exact List.mem_append_left _ he)
      exact hkind (static_kind cfg hpre hm)

/-- Client 1 is registered with the first address of the pool; client 2 asks before it. -/
def earlyBird : List Event :=
  [.register (discover 1).mac ⟨"node2", some ⟨0x0A2A0064⟩, none, ∅⟩,
    .recv (discover 2), .advance 0 true, .advance 0 true, .advance 0 true]

theorem early_bird_gets_reserved :
    ¬ Run.Along (step seedConfig) (PicksUnreserved seedConfig) start earlyBird := by
  intro h
  have hp := h (earlyBird.take 4) (.advance 0 true) [] rfl 0 (discover 2) ⟨0x0A2A0064⟩
    ⟨true, rfl, rfl, rfl⟩ (by rfl)
  exact hp (.inr (.inr ⟨(discover 1).mac, by decide, rfl⟩))

end Hivebus.Proofs.Reservations
