import Hivebus.Proofs.Pool

namespace Hivebus.Proofs.Offers
open Lib Proto Pxeboot Leases Pool

/-- The request in hand and the address it has been given. -/
def onItsWay : Phase → Option (Request × Ipv4Addr)
  | .storing q ip | .replying q ip => some (q, ip)
  | _ => none

/-- Only a registration changes the static address of a client. -/
theorem static_step (cfg : Config) (s : State) (e : Event) (m : Mac) :
    staticIp (step cfg s e).boot m =
      match e with
      | .register mac entry => if m = mac then entry.ip else staticIp s.boot m
      | _ => staticIp s.boot m := by
  cases e with
  | register mac entry =>
    simp only [step, staticIp, Table.lookup_insert_if]
    split <;> rfl
  | recv q =>
    cases hph : s.phase with
    | idle =>
      simp only [step, hph]
      cases hb : s.boot.lookup q.mac with
      | some entry => rfl
      | none =>
        simp only [staticIp, Table.lookup_insert_if]
        split
        · next hm => rw [hm, hb]; rfl
        · rfl
    | _ => simp only [step, hph]
  | write i stored =>
    simp only [step]
    cases s.writers[i]? <;> rfl
  | advance now stored =>
    have hcases := advance_cases cfg now stored s
    simp only [step]
    generalize advance cfg now stored s = s' at hcases ⊢
    cases hcases <;> rfl

/-- The events of other tasks leave the request in hand where it is. -/
theorem phase_step (cfg : Config) (s : State) {e : Event}
    (he : ∀ now stored, e ≠ .advance now stored) :
    (step cfg s e).phase = s.phase ∨
      s.phase = .idle ∧ ∃ q entry, e = .recv q ∧ (step cfg s e).phase = .scripting q entry := by
  cases e with
  | advance now stored => exact absurd rfl (he now stored)
  | register mac entry => exact .inl rfl
  | write i stored =>
    left
    simp only [step]
    cases s.writers[i]? <;> rfl
  | recv q =>
    cases hph : s.phase with
    | idle =>
      right
      simp only [step, hph]
      cases s.boot.lookup q.mac with
      | some entry => exact ⟨trivial, q, entry, rfl, rfl⟩
      | none => exact ⟨trivial, q, discovered q.mac, rfl, rfl⟩
    | _ => left; simp only [step, hph]

/-- A request in hand was in hand before, or has just come in. -/
theorem step_request {cfg : Config} {s : State} {e : Event} {q : Request}
    (h : (step cfg s e).phase.request = some q) :
    s.phase.request = some q ∨ s.phase = .idle ∧ e = .recv q := by
  rcases advance_or_other e with ⟨now, stored, rfl⟩ | hne
  · left
    have hcases := advance_cases cfg now stored s
    simp only [step] at h
    generalize advance cfg now stored s = s' at hcases h
    cases hcases with
    | rest => exact h
    | refuse | reply => cases h
    | script hph | assign hph _ | choose hph _ | renew hph _ | allocate hph _ _ | store hph =>
      rw [hph]
      exact h
  · rcases phase_step cfg s hne with hsame | ⟨hidle, q', entry, rfl, hnew⟩
    · exact .inl (hsame ▸ h)
    · rw [hnew] at h
      cases h
      exact .inr ⟨hidle, rfl⟩

theorem onItsWay_other {cfg : Config} {s : State} {e : Event}
    (he : ∀ now stored, e ≠ .advance now stored) :
    onItsWay (step cfg s e).phase = onItsWay s.phase := by
  rcases phase_step cfg s he with h | ⟨hi, q, entry, _, h⟩
  · rw [h]
  · rw [h, hi]
    rfl

/-- An address on its way to a client without a static one is from the pool. -/
def Covered (cfg : Config) (s : State) : Prop :=
  ∀ q ip, onItsWay s.phase = some (q, ip) → staticIp s.boot q.mac = none → InPool cfg ip

/-- No lease of an address outside the pool is used again for a client without a static
address, and no registration takes a static address away while it is on its way. -/
def NoStaleStatic (cfg : Config) (s : State) : Event → Prop
  | .advance _ _ =>
    match s.phase with
    | .leasing q => ∀ l, s.leases.lookup q.mac = some l → staticIp s.boot q.mac = none →
        InPool cfg l.ip
    | _ => True
  | .register mac entry => entry.ip = none →
      ∀ q ip, onItsWay s.phase = some (q, ip) → q.mac = mac → InPool cfg ip
  | _ => True

/-- Whoever has no static address when the server answers is offered one of the pool. -/
def AnswersFromPool (cfg : Config) (s : State) (e : Event) : Prop :=
  ∀ r, answer cfg s e = some r → staticIp s.boot r.mac = none → InPool cfg r.yiaddr

theorem advance_covered {cfg : Config} {s : State} {now : Instant} {stored : Bool}
    (h : Covered cfg s) :
    Covered cfg (step cfg s (.advance now stored)) ↔ NoStaleStatic cfg s (.advance now stored) := by
  have hboot : ∀ m, staticIp (step cfg s (.advance now stored)).boot m = staticIp s.boot m :=
    static_step cfg s (.advance now stored)
  simp only [Covered, hboot]
  have hcases := advance_cases cfg now stored s
  simp only [step]
  generalize advance cfg now stored s = s' at hcases ⊢
  cases hcases with
  | @renew q l hph hl => simp [NoStaleStatic, hph, hl, onItsWay]
  | @allocate q ip hph hl hf =>
    have hin := (freeIp_least hf).1
    simp [NoStaleStatic, hph, hl, onItsWay, hin]
  | @assign q ip hph hs => simp [NoStaleStatic, hph, onItsWay, hs]
  | @store q ip hph =>
    refine iff_of_true ?_ (by simp [NoStaleStatic, hph])
    simpa [onItsWay] using h q ip (by simp [hph, onItsWay])
  | refuse hph hl hf => simp [NoStaleStatic, hph, hl, onItsWay]
  | rest hph | script hph | choose hph hs | reply hph => simp [NoStaleStatic, hph, onItsWay]

theorem step_covered (cfg : Config) (s : State) (e : Event) (h : Covered cfg s) :
    Covered cfg (step cfg s e) ↔ NoStaleStatic cfg s e := by
  rcases advance_or_other e with ⟨now, stored, rfl⟩ | hne
  · exact advance_covered h
  · rw [Covered, onItsWay_other hne]
    have hs := static_step cfg s e
    cases e with
    | advance now stored => exact absurd rfl (hne now stored)
    | recv q =>
      simp only [hs]
      exact iff_of_true h trivial
    | write i stored =>
      simp only [hs]
      exact iff_of_true h trivial
    | register mac entry =>
      simp only [hs]
      constructor
      · intro hc hip q ip hw hm
        exact hc q ip hw (by rw [if_pos hm]; exact hip)
      · intro hc q ip hw hnone
        by_cases hm : q.mac = mac
        · rw [if_pos hm] at hnone
          exact hc hnone q ip hw hm
        · rw [if_neg hm] at hnone
          exact h q ip hw hnone

theorem covered_start (cfg : Config) : Covered cfg start := by
  intro q ip hw
  cases hw

/-- In every run that meets the condition, each answer to a client without a static
address offers an address of the pool. -/
theorem answers_from_pool {cfg : Config} {es : List Event}
    (h : Run.Along (step cfg) (NoStaleStatic cfg) start es) :
    Run.Along (step cfg) (AnswersFromPool cfg) start es := by
  intro pre e post he r hr hs
  have hc : Covered cfg (Run.exec (step cfg) start pre) :=
    (Run.throughout_iff_along (step_covered cfg) (covered_start cfg) es).mpr h pre (e :: post) he
  obtain ⟨q, hph, hmac, _⟩ := answer_replying hr
  rw [hmac] at hs
  exact hc q r.yiaddr (by rw [hph]; rfl) hs

/-- A client is served its static address, one of the pool, is registered again without one,
and asks again. -/
def formerPool : List Event :=
  [.register (discover 1).mac ⟨"node2", some ⟨0x0A2A0064⟩, none, ∅⟩,
    .recv (discover 1), .advance 0 true, .advance 0 true, .advance 0 true, .advance 0 true,
    .register (discover 1).mac ⟨"node2", none, none, ∅⟩,
    .recv (discover 1), .advance 1 true, .advance 1 true, .advance 1 true, .advance 1 true,
    .advance 1 true]

theorem former_pool_offered_again : ∃ r,
    answer seedConfig (run seedConfig (formerPool.take 12)) (.advance 1 true) = some r ∧
      staticIp (run seedConfig (formerPool.take 12)).boot r.mac = none ∧
      InPool seedConfig r.yiaddr := by
  have h : Run.Along (step seedConfig) (NoStaleStatic seedConfig) start formerPool := by
    refine Run.along_cons.mpr ⟨?_, Run.along_cons.mpr ⟨trivial, Run.along_cons.mpr ⟨trivial,
      Run.along_cons.mpr ⟨trivial, Run.along_cons.mpr ⟨trivial, Run.along_cons.mpr ⟨trivial,
      Run.along_cons.mpr ⟨?_, Run.along_cons.mpr ⟨trivial, Run.along_cons.mpr ⟨trivial,
      Run.along_cons.mpr ⟨trivial, Run.along_cons.mpr ⟨?_, Run.along_cons.mpr ⟨trivial,
      Run.along_cons.mpr ⟨trivial, Run.along_nil _ _⟩⟩⟩⟩⟩⟩⟩⟩⟩⟩⟩⟩⟩
    · intro hip
      cases hip
    · intro _ q ip hway
      cases hway
    · -- the lease that is used again is of the former static address
      intro l hl _
      cases hl
      decide
  exact ⟨_, rfl, rfl, answers_from_pool h (formerPool.take 12) (.advance 1 true) [] rfl _ rfl rfl⟩

/-- A client is served its static address, is registered again without one, and asks
again. -/
def formerStatic : List Event :=
  [.register (discover 1).mac ⟨"node2", some ⟨0x0A2A000C⟩, none, ∅⟩,
    .recv (discover 1), .advance 0 true, .advance 0 true, .advance 0 true, .advance 0 true,
    .register (discover 1).mac ⟨"node2", none, none, ∅⟩,
    .recv (discover 1), .advance 1 true, .advance 1 true, .advance 1 true, .advance 1 true,
    .advance 1 true]

theorem former_static_offered_again :
    ¬ Run.Along (step seedConfig) (AnswersFromPool seedConfig) start formerStatic := by
  intro h
  have hin := h (formerStatic.take 12) (.advance 1 true) [] rfl _ rfl rfl
  revert hin
  decide

end Hivebus.Proofs.Offers
