import Hivebus.Pxeboot.Dhcp

namespace Hivebus.Proofs.Leases
open Lib Proto Pxeboot

/-- No two clients hold the same address. -/
def Unique (leases : LeaseTable) : Prop :=
  ∀ m m' l l', leases.lookup m = some l → leases.lookup m' = some l' → l.ip = l'.ip → m = m'

/-- Nobody but `mac` holds the address. -/
def Free (leases : LeaseTable) (mac : Mac) (ip : Ipv4Addr) : Prop :=
  ∀ m l, m ≠ mac → leases.lookup m = some l → l.ip ≠ ip

/-- When the server takes the static address of a client, no other client holds it. -/
def StaticFree (s : State) (e : Event) : Prop :=
  ∀ now stored q ip, e = .advance now stored → s.phase = .choosing q →
    staticIp s.boot q.mac = some ip → Free s.leases q.mac ip

/-- An address on its way into the table is not there for somebody else. -/
def Accounted (s : State) : Prop :=
  Unique s.leases ∧ ∀ q ip, s.phase = .storing q ip → Free s.leases q.mac ip

theorem Unique.free {leases : LeaseTable} {mac : Mac} {l : Lease} (h : Unique leases)
    (hl : leases.lookup mac = some l) : Free leases mac l.ip := by
  intro m l' hm hl' he
  exact hm (h m mac l' l hl' hl he)

@[simp] theorem lease_ip (cfg : Config) (now : Instant) (ip : Ipv4Addr) :
    (lease cfg now ip).ip = ip := rfl

/-- Storing a lease keeps addresses unique exactly when nobody else holds its address. -/
theorem insert_unique_iff {leases : LeaseTable} {mac : Mac} {l : Lease} (h : Unique leases) :
    Unique (leases.insert mac l) ↔ Free leases mac l.ip := by
  constructor
  · intro hu m l' hm hl' he
    apply hm
    apply hu m mac l' l
    · rw [Table.lookup_insert_if, if_neg hm]
      exact hl'
    · rw [Table.lookup_insert_if, if_pos rfl]
    · exact he
  · intro hf m m' a a' ha ha' he
    rw [Table.lookup_insert_if] at ha ha'
    by_cases hm : m = mac
    · by_cases hm' : m' = mac
      · exact hm.trans hm'.symm
      · rw [if_pos hm, Option.some.injEq] at ha
        rw [if_neg hm'] at ha'
        subst ha
        exact absurd he.symm (hf m' a' hm' ha')
    · rw [if_neg hm] at ha
      by_cases hm' : m' = mac
      · rw [if_pos hm', Option.some.injEq] at ha'
        subst ha'
        exact absurd he (hf m a hm ha)
      · rw [if_neg hm'] at ha'
        exact h m m' a a' ha ha' he

/-- Of the three routes to an address only the last looks at what others hold. -/
theorem freeIp_free {cfg : Config} {leases : LeaseTable} {ip : Ipv4Addr}
    (h : freeIp cfg leases = some ip) (mac : Mac) : Free leases mac ip := by
  have hn : ∀ m l, (m, l) ∈ leases.pairs → ¬ l.ip = ip := by
    simpa using List.find?_some h
  intro m l _ hl he
  exact hn m l (Table.mem_pairs.mpr hl) he

theorem renewed_free {leases : LeaseTable} {mac : Mac} {l l' : Lease} (h : Unique leases)
    (hl : leases.lookup mac = some l) : Free (leases.insert mac l') mac l.ip := by
  intro m a hm ha
  rw [Table.lookup_insert_if, if_neg hm] at ha
  exact h.free hl m a hm ha

/-- A step of the DHCP task stores what is on its way and nothing else. -/
theorem advance_unique (cfg : Config) (now : Instant) (stored : Bool) {s : State}
    (h : Accounted s) : Unique (advance cfg now stored s).leases := by
  obtain ⟨hu, hp⟩ := h
  have hcases := advance_cases cfg now stored s
  generalize advance cfg now stored s = s' at hcases ⊢
  cases hcases with
  | @renew q l hph hl =>
    rw [insert_unique_iff hu, lease_ip]
    exact hu.free hl
  | @store q ip hph =>
    rw [insert_unique_iff hu, lease_ip]
    exact hp q ip hph
  | _ => exact hu

/-- An address that a step sends on its way is free, but for a static one. -/
theorem advance_accounted (cfg : Config) (now : Instant) (stored : Bool) {s : State}
    (h : Accounted s) :
    Accounted (advance cfg now stored s) ↔ StaticFree s (.advance now stored) := by
  have hu := advance_unique cfg now stored h
  have hidle : (∀ q, s.phase ≠ .choosing q) →
      (∀ q ip, (advance cfg now stored s).phase = .storing q ip →
        Free (advance cfg now stored s).leases q.mac ip) →
      (Accounted (advance cfg now stored s) ↔ StaticFree s (.advance now stored)) := by
    intro hne hp
    exact ⟨fun _ _ _ q ip _ hq => absurd hq (hne q), fun _ => ⟨hu, hp⟩⟩
  have hcases := advance_cases cfg now stored s
  generalize advance cfg now stored s = s' at hu hidle hcases ⊢
  cases hcases with
  | rest hph | script hph | refuse hph _ _ | store hph | reply hph =>
    exact hidle (by simp [hph]) (by simp [hph])
  | @renew q l hph hl =>
    apply hidle (by simp [hph])
    intro q' ip hq
    cases hq
    exact renewed_free h.1 hl
  | @allocate q ip hph hl hf =>
    apply hidle (by simp [hph])
    intro q' ip' hq
    cases hq
    exact freeIp_free hf q.mac
  | @choose q hph hs =>
    refine ⟨?_, fun _ => ⟨hu, by simp⟩⟩
    intro _ _ _ q' ip _ hq hst
    rw [hph] at hq
    cases hq
    rw [hs] at hst
    cases hst
  | @assign q ip hph hs =>
    constructor
    · intro ha _ _ q' ip' _ hq hst
      rw [hph] at hq
      cases hq
      rw [hs] at hst
      cases hst
      exact ha.2 q ip rfl
    · intro hf
      refine ⟨h.1, ?_⟩
      intro q' ip' hq
      cases hq
      exact hf now stored q ip rfl hph hs

/-- An event is a step of the DHCP task or it is not. -/
theorem advance_or_other (e : Event) :
    (∃ now stored, e = .advance now stored) ∨ ∀ now stored, e ≠ .advance now stored := by
  cases e with
  | advance now stored => exact .inl ⟨now, stored, rfl⟩
  | recv q => exact .inr (fun _ _ h => nomatch h)
  | register mac entry => exact .inr (fun _ _ h => nomatch h)
  | write i stored => exact .inr (fun _ _ h => nomatch h)

/-- Events other than those of the DHCP task leave the leases and what is on its way
into them alone. -/
theorem step_other (cfg : Config) (s : State) (e : Event)
    (he : ∀ now stored, e ≠ .advance now stored) :
    (step cfg s e).leases = s.leases ∧
      ∀ q ip, (step cfg s e).phase = .storing q ip ↔ s.phase = .storing q ip := by
  cases e with
  | advance now stored => exact absurd rfl (he now stored)
  | recv q =>
    unfold step
    cases hph : s.phase <;> cases hb : s.boot.lookup q.mac <;> simp [hph, hb]
  | register mac entry => exact ⟨rfl, fun _ _ => Iff.rfl⟩
  | write i stored =>
    unfold step
    cases hw : s.writers[i]? <;> simp [hw]

theorem step_accounted (cfg : Config) {s : State} (e : Event) (h : Accounted s) :
    Accounted (step cfg s e) ↔ StaticFree s e := by
  rcases advance_or_other e with ⟨now, stored, rfl⟩ | hne
  · exact advance_accounted cfg now stored h
  · obtain ⟨hl, hp⟩ := step_other cfg s e hne
    refine ⟨fun _ now stored q ip hc => absurd hc (hne now stored), fun _ => ?_⟩
    rw [Accounted, hl]
    exact ⟨h.1, fun q ip hq => h.2 q ip ((hp q ip).mp hq)⟩

/-- An address on its way to a second holder gets there with the next step of the DHCP
task, and nothing else can stop it. -/
theorem doomed (cfg : Config) (es : List Event) (now : Instant) (stored : Bool) {s : State}
    {q : Request} {ip : Ipv4Addr} (hq : s.phase = .storing q ip)
    (hf : ¬ Free s.leases q.mac ip) :
    ¬ Run.Throughout (step cfg) (fun s => Unique s.leases) s (es ++ [.advance now stored]) := by
  have hbreak : ∀ (s : State) now stored, s.phase = .storing q ip → ¬ Free s.leases q.mac ip →
      Unique s.leases → ¬ Unique (step cfg s (.advance now stored)).leases := by
    intro s now stored hq hf hu hu'
    simp only [step, advance, hq] at hu'
    exact hf ((insert_unique_iff hu).mp hu')
  induction es generalizing s with
  | nil =>
    intro h
    obtain ⟨hu, ht⟩ := Run.throughout_cons.mp h
    exact hbreak s now stored hq hf hu (ht [] [] rfl)
  | cons e es ih =>
    intro h
    obtain ⟨hu, ht⟩ := Run.throughout_cons.mp h
    rcases advance_or_other e with ⟨now', stored', rfl⟩ | hne
    · exact hbreak s now' stored' hq hf hu (ht [] (es ++ [.advance now stored]) rfl)
    · obtain ⟨hl, hp⟩ := step_other cfg s e hne
      exact ih ((hp q ip).mpr hq) (by rw [hl]; exact hf) ht

/-- Leases stay unique over a run, followed to the next step of the DHCP task, if and
only if the server never takes a static address that another client holds. -/
theorem leases_unique_iff (cfg : Config) (es : List Event) (now : Instant) (stored : Bool) :
    Run.Throughout (step cfg) (fun s => Unique s.leases) start (es ++ [.advance now stored]) ↔
      Run.Along (step cfg) StaticFree start es := by
  have hstart : Accounted start := ⟨fun m m' l l' h => (nomatch h), fun q ip h => (nomatch h)⟩
  rw [← Run.throughout_iff_along (fun s e h => step_accounted cfg e h) hstart es]
  constructor
  · intro h pre post he
    have hu : Unique (Run.exec (step cfg) start pre).leases :=
      h pre (post ++ [.advance now stored]) (by rw [he, List.append_assoc])
    refine ⟨hu, ?_⟩
    intro q ip hq
    by_contra hf
    apply doomed cfg post now stored hq hf
    intro a b hab
    rw [← Run.exec_append]
    exact h (pre ++ a) b (by rw [he, List.append_assoc, hab, List.append_assoc])
  · intro h pre post he
    rcases List.append_eq_append_iff.mp he.symm with ⟨as, hes, _⟩ | ⟨as, hpre, hlast⟩
    · exact (h pre as hes).1
    · have hend := h es [] (List.append_nil es).symm
      rw [hpre, Run.exec_append]
      cases as with
      | nil => exact hend.1
      | cons a as =>
        obtain ⟨rfl, ht⟩ := List.cons.inj hlast
        obtain ⟨rfl, _⟩ := List.append_eq_nil_iff.mp ht.symm
        exact advance_unique cfg now stored hend

/-- A DISCOVER of the client whose hardware address ends in `b`. -/
def discover (b : UInt8) : Request where
  kind := .discover
  xid := 1
  flags := 0
  chaddr := ⟨[0x52, 0x54, 0, 0, 0, b, 0, 0, 0, 0, 0, 0, 0, 0, 0, 0], rfl⟩

/-- Two clients are registered with one static address, and both ask for it. -/
def sharedStatic : List Event :=
  [.register (discover 1).mac ⟨"node2", some ⟨0x0A2A000C⟩, none, ∅⟩,
    .register (discover 2).mac ⟨"node3", some ⟨0x0A2A000C⟩, none, ∅⟩,
    .recv (discover 1), .advance 0 true, .advance 0 true, .advance 0 true, .advance 0 true,
    .recv (discover 2), .advance 1 true, .advance 1 true, .advance 1 true]

theorem shared_static_leased_twice :
    ¬ Run.Throughout (step seedConfig) (fun s => Unique s.leases) start sharedStatic := by
  intro h
  have hu : Unique (run seedConfig sharedStatic).leases := h sharedStatic [] rfl
  have he := hu (discover 1).mac (discover 2).mac (lease seedConfig 0 ⟨0x0A2A000C⟩)
    (lease seedConfig 1 ⟨0x0A2A000C⟩) rfl rfl rfl
  exact absurd he (by decide)

end Hivebus.Proofs.Leases
